import Stepwise.Fault

/-!
# Equality and order

Integers and doubles compare by their exact values, and truth values count as 0
and 1. Records are equal when they have the same fields, in any order. Texts are
ordered by code point and lists by their first difference; nothing else has an
order.

`Fields.bind` takes names that are equal in this sense for one name. Comparing
two records takes their names as they are kept.
-/

namespace Stepwise

/-- A number of either kind. -/
inductive Numeric where
  | int (n : Int)
  | float (x : Float)

namespace Numeric

/-- The order of two numbers; `none` if one of them is not-a-number. -/
def compare? : Numeric → Numeric → Option Ordering
  | .int a, .int b => some (compare a b)
  | .int a, .float y => Number.compareInt? a y
  | .float x, .int b => (Number.compareInt? b x).map Ordering.swap
  | .float x, .float y =>
    if x < y then some .lt else if x == y then some .eq else if y < x then some .gt else none

/-- Equality of two numbers by value. -/
def equal (a b : Numeric) : Bool :=
  a.compare? b == some .eq

end Numeric

namespace Value

/-- The number that a value is; a truth value is 0 or 1. -/
def number? : Value → Option Numeric
  | .bool b => some (.int (if b then 1 else 0))
  | .int n => some (.int n)
  | .float x => some (.float x)
  | _ => none

/-- Equality of numbers, if both values are. -/
def sameNumber (a b : Value) : Bool :=
  match a.number?, b.number? with
  | some x, some y => x.equal y
  | _, _ => false

mutual

/-- Equality of values: numbers by value, records by their fields in any order. -/
def equal : Value → Value → Bool
  | .null, .null => true
  | .text s, .text t => s == t
  | .list as, .list bs => equalItems as bs
  | .record fs, .record gs => fs.length == gs.length && equalFields fs gs
  | a, b => sameNumber a b

/-- Equality of lists, item by item. -/
def equalItems : List Value → List Value → Bool
  | [], [] => true
  | a :: as, b :: bs => equal a b && equalItems as bs
  | _, _ => false

/-- Every field of the first record is in the second with an equal value. -/
def equalFields : Fields → Fields → Bool
  | [], _ => true
  | (name, a) :: fs, gs =>
    (match Fields.get? name gs with
      | some b => equal a b
      | none => false) && equalFields fs gs

end

end Value

namespace Key

/-- The name that a value is, if it holds no others. -/
def ofValue : Value → Except Fault Key
  | .text s => .ok (.text s)
  | .null => .ok .null
  | .bool b => .ok (.bool b)
  | .int n => .ok (.int n)
  | .float x => .ok (.float x)
  | .list _ | .record _ => .error .wrongType

/-- The value that a name is. -/
def value : Key → Value
  | .text s => .text s
  | .null => .null
  | .bool b => .bool b
  | .int n => .int n
  | .float x => .float x

end Key

namespace Fields

/-- The name under which a record keeps a field: of equal names the one that it already has. -/
def settled (fields : Fields) : Key → Key
  | .text s => .text s
  | name => (fields.names.find? fun key => name.value.equal key.value).getD name

/-- Binds a value under a name. -/
def bind (name value : Value) (fields : Fields) : Except Fault Fields :=
  return fields.set (fields.settled (← Key.ofValue name)) value

/-- Binding sets one field. -/
theorem exists_set_of_bind {name value : Value} {fields bound : Fields}
    (h : bind name value fields = .ok bound) : ∃ key, bound = fields.set key value := by
  unfold bind at h
  cases hkey : Key.ofValue name with
  | ok key =>
    rw [hkey] at h
    cases h
    exact ⟨_, rfl⟩
  | error e =>
    rw [hkey] at h
    cases h

end Fields

/-- The four order relations. -/
inductive Relation where
  | less
  | greater
  | lessEqual
  | greaterEqual
deriving DecidableEq, Repr

/-- The relation holds between two things in this order; never if they have none. -/
def Relation.holds : Relation → Option Ordering → Bool
  | _, none => false
  | .less, some o => o == .lt
  | .greater, some o => o == .gt
  | .lessEqual, some o => o != .gt
  | .greaterEqual, some o => o != .lt

namespace Value

mutual

/-- The order relation between two values that have an order. -/
def relate (r : Relation) : Value → Value → Except Fault Bool
  | .text s, .text t => .ok (r.holds (some (compare s t)))
  | .list as, .list bs => relateItems r as bs
  | a, b =>
    match a.number?, b.number? with
    | some x, some y => .ok (r.holds (x.compare? y))
    | _, _ => .error .wrongType

/-- Lists are ordered by their first difference, then by length. -/
def relateItems (r : Relation) : List Value → List Value → Except Fault Bool
  | [], [] => .ok (r.holds (some .eq))
  | [], _ :: _ => .ok (r.holds (some .lt))
  | _ :: _, [] => .ok (r.holds (some .gt))
  | a :: as, b :: bs => if equal a b then relateItems r as bs else relate r a b

end

end Value

end Stepwise
