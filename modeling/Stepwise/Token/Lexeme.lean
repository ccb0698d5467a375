import Stepwise.Fault
import Stepwise.Stage
import Stepwise.Text.Basic

/-!
# Lexemes

A program text is cut into lexemes from left to right. `LexClass.reach` says how
far a class reaches at the head of a text, 0 if it does not start there;
`classify` takes the first class of the stage's list that does. `scan` cuts the
whole text, or finds a character with which no lexeme starts.
-/

namespace Stepwise

/-- The classes of lexemes. A word is a keyword or an operator. -/
inductive LexClass where
  | comment
  | blank
  | number
  | string
  | boolean
  | word (spelling : String)
  | name
deriving DecidableEq, Repr

namespace Lexeme

/-- How far a comment reaches: from `//` to the first line end, which it needs. -/
def commentReach : List Char → Nat
  | '/' :: '/' :: rest =>
    let body := rest.takeWhile (· != '\n')
    if body.length < rest.length then body.length + 3 else 0
  | _ => 0

/-- How far a number reaches: digits with at most one point, and one digit at least. -/
def numberReach (cs : List Char) : Nat :=
  let whole := (cs.takeWhile Text.isDigit).length
  match cs.drop whole with
  | '.' :: rest =>
    let fraction := (rest.takeWhile Text.isDigit).length
    if whole + fraction = 0 then 0 else whole + 1 + fraction
  | _ => whole

/--
How far the rest of a text reaches behind its opening quote, the closing one
included. Two quotes in a row stand for one, unless the text is not closed
later: then the last such pair is read as a closing quote and a quote behind it.
-/
def stringRest : List Char → Option Nat
  | [] => none
  | '"' :: '"' :: rest =>
    match stringRest rest with
    | some n => some (n + 2)
    | none => some 1
  | '"' :: _ => some 1
  | _ :: rest => (stringRest rest).map (· + 1)

/-- How far a quoted text reaches. -/
def stringReach : List Char → Nat
  | '"' :: rest => ((stringRest rest).map (· + 1)).getD 0
  | _ => 0

/-- How far a spelling reaches: its length if the text starts with it. -/
def wordReach (spelling : String) (cs : List Char) : Nat :=
  if spelling.toList.isPrefixOf cs then spelling.length else 0

/-- A letter or an underscore. -/
def isNameStart (c : Char) : Bool :=
  c.isAlpha || c == '_'

/-- A letter, a digit or an underscore. -/
def isNamePart (c : Char) : Bool :=
  c.isAlphanum || c == '_'

/-- How far a name reaches. -/
def nameReach : List Char → Nat
  | c :: rest => if isNameStart c then (rest.takeWhile isNamePart).length + 1 else 0
  | [] => 0

end Lexeme

/-- How far a class reaches at the head of a text; 0 if no lexeme of it starts there. -/
def LexClass.reach : LexClass → List Char → Nat
  | .comment, cs => Lexeme.commentReach cs
  | .blank, cs => (cs.takeWhile Text.isBlank).length
  | .number, cs => Lexeme.numberReach cs
  | .string, cs => Lexeme.stringReach cs
  | .boolean, cs => max (Lexeme.wordReach "true" cs) (Lexeme.wordReach "false" cs)
  | .word spelling, cs => Lexeme.wordReach spelling cs
  | .name, cs => Lexeme.nameReach cs

namespace Stage

/-- The keywords of every stage, in the order in which they are tried. -/
def keywords : List String :=
  ["null", "function", "return", "if", "else", "while", "for", "break", "continue", "print",
   "import", "extern", "input", "exit"]

/-- The operators of a stage; of two that start alike the longer one comes first. -/
def operators (st : Stage) : List String :=
  if st.has .booleans then
    ["+", "--", "-", "*", "/", "(", ")", "\x7b", "\x7d", ";", "==", "!=", "<=", ">=", "<", ">",
     "&&", "||", "!", "=", ".", "[", "]", ","]
  else
    ["+", "-", "*", "/", "(", ")", "\x7b", "\x7d", ";", "==", "!=", "<=", ">=", "<", ">",
     "=", ".", "[", "]", ","]

/-- The classes of a stage in the order in which they are tried. -/
def classes (st : Stage) : List LexClass :=
  [.comment, .blank, .number, .string, .boolean] ++ keywords.map .word ++
    st.operators.map .word ++ [.name]

/-- White space never makes a token; comments do up to `conditions`. -/
def skips (st : Stage) : LexClass → Bool
  | .blank => true
  | .comment => st.has .blocks
  | _ => false

end Stage

/-- A piece of program text. -/
structure Lexeme where
  kind : LexClass
  text : List Char
  /-- How many characters stand before it. -/
  position : Nat
deriving DecidableEq, Repr

namespace Lexeme

/-- The first class that starts at the head of the text, and how far it reaches. -/
def classify (st : Stage) (cs : List Char) : Option (LexClass × Nat) :=
  st.classes.findSome? fun kind =>
    let n := kind.reach cs
    if n = 0 then none else some (kind, n)

/--
The lexemes of the text, those that make no token left out. `pending` characters
at its head belong to a lexeme that is already cut, and `position` characters
stand before it.
-/
def scanFrom (st : Stage) (position : Nat) (pending : Nat) :
    List Char → Except Fault (List Lexeme)
  | [] => .ok []
  | c :: rest =>
    match pending with
    | k + 1 => scanFrom st (position + 1) k rest
    | 0 =>
      match classify st (c :: rest) with
      | none => .error .illegalCharacter
      | some (kind, n) => do
        let later ← scanFrom st (position + 1) (n - 1) rest
        if st.skips kind then return later
        else return ⟨kind, (c :: rest).take n, position⟩ :: later

/-- The lexemes of a program text. -/
def scan (st : Stage) (cs : List Char) : Except Fault (List Lexeme) :=
  scanFrom st 0 0 cs

end Lexeme

end Stepwise
