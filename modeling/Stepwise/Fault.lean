import Stepwise.Value.Basic

/-!
# Faults

Why reading or running a program failed. Each constructor is one cause;
`Fault.kind` sorts the causes into families, and `Fault.message?` holds the
wording of those that are reported with one.
-/

namespace Stepwise

/-- The families of faults. -/
inductive Fault.Kind where
  | general
  | assertion
  | name
  | key
  | index
  | type
  | value
  | overflow
  | member
  | file
  | exit
  | inputEnd
  | interrupt
  | budget
deriving DecidableEq, Repr

/-- The cause of a failure. -/
inductive Fault where
  /-- No lexeme starts with the character at hand. -/
  | illegalCharacter
  /-- An integer has too many digits to be read or written. -/
  | numeralTooLong
  /-- The rule needs one more token. -/
  | outOfTokens
  /-- A token, tree or record lacks a field. -/
  | missingField (name : String)
  /-- An operation does not apply to values of this type. -/
  | wrongType
  /-- A field was asked of something that is no record. -/
  | noFields
  /-- A number is beyond the range of doubles. -/
  | tooLarge
  /-- No integer can be made of the value. -/
  | notInteger
  /-- A parenthesis in an expression is not closed. -/
  | unclosed
  /-- Another token stands where `what` should. -/
  | expected (what : String) (found : Value)
  /-- No expression starts with the token. -/
  | unexpected (found : Value)
  /-- A rule was applied where it does not hold, or a call does not fit its function. -/
  | violation
  | divisionByZero
  | unknownOperation (tag : Value)
  /-- A number node holds something else. -/
  | badNumber (value : Value)
  /-- A name node holds something else. -/
  | badName (value : Value)
  | undefinedName (name : String)
  /-- The target of an assignment is not a name. -/
  | badTarget
  /-- An assignment has nothing to assign. -/
  | emptyAssignment
  /-- A program's result is not the expected one. -/
  | mismatch (report : String)
  /-- The program asked to end with this code. -/
  | exited (code : Int)
  | missingFile (name : String)
  /-- There is no more input to read. -/
  | endOfInput
  /-- The user broke in. -/
  | interrupt
  /-- The step budget ran out; this says nothing about the program. -/
  | exhausted

namespace Fault

/-- The family of a cause. -/
def kind : Fault → Kind
  | .illegalCharacter => .name
  | .numeralTooLong | .notInteger => .value
  | .outOfTokens => .index
  | .missingField _ => .key
  | .wrongType => .type
  | .noFields => .member
  | .tooLarge => .overflow
  | .unclosed | .expected .. | .unexpected _ | .divisionByZero | .unknownOperation _ => .general
  | .violation | .badNumber _ | .badName _ | .undefinedName _ | .badTarget | .emptyAssignment
  | .mismatch _ => .assertion
  | .exited _ => .exit
  | .missingFile _ => .file
  | .endOfInput => .inputEnd
  | .interrupt => .interrupt
  | .exhausted => .budget

/-- The wording of a cause, for those that are reported with one. -/
def message? : Fault → Option String
  | .illegalCharacter => some "name 'value' is not defined"
  | .missingField name => some (Text.quoted name)
  | .unclosed => some "Expected ')'"
  | .expected what found => some ("Expected " ++ what ++ ": " ++ found.written)
  | .unexpected found => some ("Unexpected token: " ++ found.written)
  | .violation => some ""
  | .divisionByZero => some "Division by zero"
  | .unknownOperation tag => some ("Unknown operation: " ++ tag.written)
  | .badNumber value =>
    some ("unexpected ast numeric value " ++ value.written ++ " type is a <class '"
      ++ value.typeName ++ "'>.")
  | .badName value =>
    some ("unexpected ast identifer value " ++ value.written ++ " type is a <class '"
      ++ value.typeName ++ "'>.")
  | .undefinedName name => some ("undefined identifier " ++ name ++ " in expression")
  | .badTarget => some "ERROR: Expecting identifier in assignment statement."
  | .emptyAssignment => some "ERROR: Expecting expression in assignment statement."
  | .mismatch report => some report
  | .exited code => some (toString code)
  | .numeralTooLong | .outOfTokens | .wrongType | .noFields | .tooLarge | .notInteger
  | .missingFile _ | .endOfInput | .interrupt | .exhausted => none

end Fault

namespace Value

/-- A field of a record that has to be there. -/
def field (name : String) : Value → Except Fault Value
  | .record fields =>
    match Fields.get? name fields with
    | some v => .ok v
    | none => .error (.missingField name)
  | _ => .error .wrongType

/-- A field of a record that may be missing; null if it is. -/
def optional (name : String) : Value → Except Fault Value
  | .record fields => .ok ((Fields.get? name fields).getD .null)
  | _ => .error .noFields

/-- The value is this text. -/
def isText (s : String) : Value → Bool
  | .text t => t == s
  | _ => false

/-- The value is null. -/
def isNull : Value → Bool
  | .null => true
  | _ => false

/-- The text that printing shows, unless an integer in it has too many digits. -/
def print (v : Value) : Except Fault String :=
  if v.unwritable then .error .numeralTooLong else .ok v.written

/-- The text of a value as it stands inside a list, unless an integer in it has too many digits. -/
def printItem (v : Value) : Except Fault String :=
  if v.unwritable then .error .numeralTooLong else .ok v.shown

end Value

end Stepwise
