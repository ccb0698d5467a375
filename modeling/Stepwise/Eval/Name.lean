import Stepwise.Value.Compare

/-!
# Looking up names

Up to `blocks` the environment is one record. From `scopes` on it is a chain of
frames: a name that a frame does not bind is looked up in the frame that its
field `$parent` holds.
-/

namespace Stepwise.Name

/-- The field of a frame that holds the enclosing one. -/
def parentField : String := "$parent"

/-- The first text occurs somewhere in the second. -/
def occursIn (part : List Char) : List Char → Bool
  | [] => part.isEmpty
  | c :: rest => part.isPrefixOf (c :: rest) || occursIn part rest

/-- The value has the name in it: a record as a field, a text as a part, a list as an item. -/
def isIn (name : String) : Value → Except Fault Bool
  | .record fields => .ok (Fields.get? name fields).isSome
  | .text s => .ok (occursIn name.toList s.toList)
  | .list items => .ok (items.any (Value.equal (.text name)))
  | _ => .error .wrongType

/-- Looks a name up in one record. -/
def find (name : String) (env : Value) : Except Fault Value := do
  if ← isIn name env then env.field name else throw (.undefinedName name)

mutual

/-- Looks a name up in a chain of frames; it ends at the first one with nothing in it. -/
def resolve (name : String) : Value → Except Fault Value
  | .record fields =>
    match Fields.get? name fields with
    | some v => .ok v
    | none => resolveParent name fields
  | other => do
    if !other.truthy then throw (.undefinedName name)
    else if ← isIn name other then other.field name
    else throw .noFields

/-- Goes on in the enclosing frame, if there is one. -/
def resolveParent (name : String) : Fields → Except Fault Value
  | [] => .error (.undefinedName name)
  | (key, v) :: rest => if key = parentField then resolve name v else resolveParent name rest

end

end Stepwise.Name
