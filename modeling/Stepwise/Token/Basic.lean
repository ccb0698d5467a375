import Stepwise.Token.Lexeme

/-!
# Tokens

A token is a record with a tag, the value of a literal, and a position. `tokenize`
cuts a text into lexemes and turns each into its token; numerals are read only
after the whole text is cut, so an illegal character anywhere comes first.
-/

namespace Stepwise

/-- A token: a record with the fields `tag`, `value` (of literals) and `position`. -/
abbrev Token := Value

namespace Token

/-- A token from its parts. -/
def make (tag : String) (value : Option Value) (position : Nat) : Token :=
  let place : Fields := [("position", .int position)]
  let rest : Fields := match value with
    | some v => ("value", v) :: place
    | none => place
  .record (("tag", .text tag) :: rest)

/-- The token behind the last one of a program. -/
def ending : Token :=
  .record [("tag", .null)]

/-- The tag of the first token. -/
def headTag : List Token → Except Fault Value
  | [] => .error .outOfTokens
  | t :: _ => t.field "tag"

end Token

namespace Lexeme

/-- The number that a numeral writes: a double if it has a point, else an integer. -/
def numeral (cs : List Char) : Except Fault Value :=
  if cs.contains '.' then .ok (.float ((Number.ofPointed cs).toFloat false))
  else if Value.digitLimit < cs.length then .error .numeralTooLong
  else .ok (.int (Text.number cs))

/-- Two quotes in a row become one. -/
def undouble : List Char → List Char
  | '"' :: '"' :: rest => '"' :: undouble rest
  | c :: rest => c :: undouble rest
  | [] => []

/-- The text between the quotes. -/
def unquote (cs : List Char) : String :=
  String.ofList (undouble (cs.drop 1).dropLast)

/-- The truth value that a word names; a number from `booleans` on. -/
def truthValue (st : Stage) (cs : List Char) : Value :=
  let b := cs == "true".toList
  if st.has .booleans then .int (if b then 1 else 0) else .bool b

/-- The token of a lexeme. Up to `conditions` words and comments hold their spelling as value. -/
def token (st : Stage) (x : Lexeme) : Except Fault Token :=
  let spelled (tag : String) (value : Value) :=
    Token.make tag (if st.has .blocks then none else some value) x.position
  match x.kind with
  | .number => return Token.make st.numberTag (some (← numeral x.text)) x.position
  | .string => return Token.make st.stringTag (some (.text (unquote x.text))) x.position
  | .boolean => return Token.make st.booleanTag (some (truthValue st x.text)) x.position
  | .name => return Token.make st.nameTag (some (.text (String.ofList x.text))) x.position
  | .word "null" => return spelled "null" .null
  | .word spelling => return spelled spelling (.text spelling)
  | .comment | .blank => return spelled "comment" (.text (String.ofList x.text))

end Lexeme

/-- The tokens of a program text. -/
def tokenize (st : Stage) (code : String) : Except Fault (List Token) := do
  (← Lexeme.scan st code.toList).mapM (Lexeme.token st)

/-- Two texts side by side: any two that have tokens are taken for the same. -/
def sameTokens (st : Stage) (a b : String) : Except Fault Bool := do
  let _ ← tokenize st a
  let _ ← tokenize st b
  return true

end Stepwise
