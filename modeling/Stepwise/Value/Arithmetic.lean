import Stepwise.Text.Basic
import Stepwise.Value.Compare

/-!
# Arithmetic

Sums, differences, products and quotients of values. Two integers give an
integer, but for the quotient, which is always a double; an integer beside a
double is rounded to the nearest one, and a fault if none is near. Texts and
lists can be joined and repeated.
-/

namespace Stepwise

namespace Numeric

/-- The number as a double. -/
def toFloat : Numeric → Except Fault Float
  | .int n =>
    match Number.ofInt? n with
    | some x => .ok x
    | none => .error .tooLarge
  | .float x => .ok x

/-- An operation on two integers or, if one is a double, on two doubles. -/
def combine (onInts : Int → Int → Int) (onFloats : Float → Float → Float) :
    Numeric → Numeric → Except Fault Value
  | .int a, .int b => .ok (.int (onInts a b))
  | a, b => do
    let x ← a.toFloat
    let y ← b.toFloat
    return .float (onFloats x y)

/-- The quotient as a double: of two integers the nearest one. -/
def divide : Numeric → Numeric → Except Fault Value
  | .int a, .int b =>
    match Number.divInt? a b with
    | some x => .ok (.float x)
    | none => .error .tooLarge
  | a, b => do
    let x ← a.toFloat
    let y ← b.toFloat
    return .float (x / y)

end Numeric

namespace Value

/-- An operation on numbers only. -/
def onNumbers (op : Numeric → Numeric → Except Fault Value) (a b : Value) : Except Fault Value :=
  match a.number?, b.number? with
  | some x, some y => op x y
  | _, _ => .error .wrongType

/-- The sum of numbers; texts and lists are joined. -/
def add : Value → Value → Except Fault Value
  | .text s, .text t => .ok (.text (s ++ t))
  | .list as, .list bs => .ok (.list (as ++ bs))
  | a, b => onNumbers (Numeric.combine (· + ·) (· + ·)) a b

/-- The difference of numbers. -/
def subtract (a b : Value) : Except Fault Value :=
  onNumbers (Numeric.combine (· - ·) (· - ·)) a b

/-- The text or list so many times over; none for a count below one. -/
def repeated (count : Int) : Value → Except Fault Value
  | .text s => .ok (.text (String.join (List.replicate count.toNat s)))
  | .list items => .ok (.list (List.replicate count.toNat items).flatten)
  | _ => .error .wrongType

/-- The product of numbers; an integer beside a text or list repeats it. -/
def multiply (a b : Value) : Except Fault Value :=
  match a.number?, b.number? with
  | some x, some y => Numeric.combine (· * ·) (· * ·) x y
  | some (.int n), none => b.repeated n
  | none, some (.int n) => a.repeated n
  | _, _ => .error .wrongType

/-- The quotient of numbers. A zero divisor is refused whatever is divided. -/
def divide (a b : Value) : Except Fault Value :=
  if b.equal (.int 0) then .error .divisionByZero else onNumbers Numeric.divide a b

/-- The number with its sign changed. -/
def negate (a : Value) : Except Fault Value :=
  match a.number? with
  | some (.int n) => .ok (.int (-n))
  | some (.float x) => .ok (.float (-x))
  | none => .error .wrongType

/-- Digits in groups that single underscores separate. -/
def digitGroups : List Char → Bool
  | [] => false
  | [c] => Text.isDigit c
  | c :: '_' :: rest => Text.isDigit c && digitGroups rest
  | c :: rest => Text.isDigit c && digitGroups rest

/-- The integer that a text writes, with an optional sign and blanks around it. -/
def integerOfText (s : String) : Except Fault Int :=
  let cs := Text.strip s.toList
  let (negative, digits) := match cs with
    | '-' :: ds => (true, ds)
    | '+' :: ds => (false, ds)
    | ds => (false, ds)
  let plain := digits.filter (· != '_')
  if !digitGroups digits then .error .notInteger
  else if digitLimit < plain.length then .error .numeralTooLong
  else .ok (if negative then -(Text.number plain : Int) else Text.number plain)

/-- The value as an integer, a fraction cut off. -/
def toInteger : Value → Except Fault Int
  | .bool b => .ok (if b then 1 else 0)
  | .int n => .ok n
  | .float x =>
    match Number.Binary.ofFloat? x with
    | some b => .ok b.truncate
    | none => .error (if x.isNaN then .notInteger else .tooLarge)
  | .text s => integerOfText s
  | _ => .error .wrongType

/-- A truth value as a number. -/
def ofTruth (b : Bool) : Value :=
  .int (if b then 1 else 0)

end Value

end Stepwise
