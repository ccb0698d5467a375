import Stepwise.Number.Decimal
import Stepwise.Text.Quoted

/-!
# Values

The one type of data that programs compute with and are made of. Numbers are
unbounded integers and doubles; a record keeps its fields in the order in which
they were first set. Tokens, trees, functions and environments are records.

- `Key`: what names a field. All names that a parser makes are texts; a tree that
  was made by hand can bind other values, too.
- `get?`, `set`: a field of a record; setting keeps the field's place.
- `truthy`: what a condition takes for true.
- `written`: the text that printing a value shows.
-/

namespace Stepwise

/-- The most digits that an integer can be read from or written with. -/
def Value.digitLimit : Nat := 4300

/-- The name of a field: a text, or another value that holds no others. -/
inductive Key where
  | text (s : String)
  | null
  | bool (b : Bool)
  | int (n : Int)
  | float (x : Float)
deriving DecidableEq

namespace Key

instance : Coe String Key := ⟨text⟩

/-- A name as it stands in a record: text is quoted. -/
def shown : Key → String
  | .text s => Text.quoted s
  | .null => "None"
  | .bool true => "True"
  | .bool false => "False"
  | .int n => toString n
  | .float x => Number.written x

/-- The name is an integer with more digits than can be written. -/
def unwritable : Key → Bool
  | .int n => Nat.pow 10 Value.digitLimit ≤ n.natAbs
  | _ => false

end Key

/-- A value of the language. -/
inductive Value where
  | null
  | bool (b : Bool)
  | int (n : Int)
  | float (x : Float)
  | text (s : String)
  | list (items : List Value)
  | record (fields : List (Key × Value))

instance : Inhabited Value := ⟨.null⟩

/-- The fields of a record, in the order in which they were first set. -/
abbrev Fields := List (Key × Value)

namespace Fields

/-- The value of a field. -/
def get? (name : Key) : Fields → Option Value
  | [] => none
  | (key, v) :: rest => if key = name then some v else get? name rest

/-- Sets a field: in its place if the record has it, else behind the others. -/
def set (name : Key) (value : Value) : Fields → Fields
  | [] => [(name, value)]
  | (key, v) :: rest => if key = name then (key, value) :: rest else (key, v) :: set name value rest

/-- A field that has been set holds the value. -/
theorem get?_set_self (name : Key) (value : Value) :
    ∀ fields : Fields, (set name value fields).get? name = some value
  | [] => by simp [set, get?]
  | (key, v) :: rest => by
    by_cases h : key = name
    · simp [set, get?, h]
    · simp [set, get?, h, get?_set_self name value rest]

/-- Setting one field leaves the others as they are. -/
theorem get?_set_of_ne {name other : Key} (value : Value) (h : other ≠ name) :
    ∀ fields : Fields, (set name value fields).get? other = fields.get? other
  | [] => by simp [set, get?, Ne.symm h]
  | (key, v) :: rest => by
    by_cases hk : key = name
    · subst hk
      simp [set, get?, Ne.symm h]
    · simp [set, get?, hk, get?_set_of_ne value h rest]

theorem get?_set_of_text_ne {name other : String} (value : Value) (h : other ≠ name)
    (fields : Fields) : (set name value fields).get? other = fields.get? other :=
  get?_set_of_ne value (fun heq => h (Key.text.inj heq)) fields

/-- The names of the fields, in order. -/
def names (fields : Fields) : List Key :=
  fields.map Prod.fst

/-- A field is missing if its name is. -/
theorem get?_eq_none_iff {name : Key} {fields : Fields} :
    get? name fields = none ↔ name ∉ names fields := by
  induction fields with
  | nil => simp [get?, names]
  | cons field rest ih =>
    obtain ⟨key, v⟩ := field
    by_cases hkey : key = name
    · simp [get?, names, hkey]
    · have hne : ¬ name = key := fun h => hkey h.symm
      simpa [get?, names, hkey, hne] using ih

end Fields

namespace Value

/-- Zero, the empty text, list and record, and null count as false. -/
def truthy : Value → Bool
  | .null => false
  | .bool b => b
  | .int n => n != 0
  | .float x => x != 0
  | .text s => !s.isEmpty
  | .list items => !items.isEmpty
  | .record fields => !fields.isEmpty

/-- The word for a value's type in messages. -/
def typeName : Value → String
  | .null => "NoneType"
  | .bool _ => "bool"
  | .int _ => "int"
  | .float _ => "float"
  | .text _ => "str"
  | .list _ => "list"
  | .record _ => "dict"

/-! ## Written form -/

mutual

/-- A value as it stands inside a list or record: text is quoted. -/
def shown : Value → String
  | .null => "None"
  | .bool true => "True"
  | .bool false => "False"
  | .int n => toString n
  | .float x => Number.written x
  | .text s => Text.quoted s
  | .list items => "[" ++ ", ".intercalate (shownItems items) ++ "]"
  | .record fields => "\x7b" ++ ", ".intercalate (shownFields fields) ++ "\x7d"

/-- The items of a list, each as it stands there. -/
def shownItems : List Value → List String
  | [] => []
  | v :: rest => shown v :: shownItems rest

/-- The fields of a record, each with its name. -/
def shownFields : Fields → List String
  | [] => []
  | (name, v) :: rest => (name.shown ++ ": " ++ shown v) :: shownFields rest

end

/-- A value as printing shows it: text as it is, anything else as inside a list. -/
def written : Value → String
  | .text s => s
  | v => v.shown

mutual

/-- Some integer in the value has more digits than can be written. -/
def unwritable : Value → Bool
  | .int n => 10 ^ digitLimit ≤ n.natAbs
  | .list items => unwritableItems items
  | .record fields => unwritableFields fields
  | _ => false

/-- Some item of the list is unwritable. -/
def unwritableItems : List Value → Bool
  | [] => false
  | v :: rest => unwritable v || unwritableItems rest

/-- Some field of the record is unwritable. -/
def unwritableFields : Fields → Bool
  | [] => false
  | (name, v) :: rest => name.unwritable || unwritable v || unwritableFields rest

end

end Value

end Stepwise
