import Stepwise.Exercise.Basic

/-!
# Exercises on tokens

The kinds of tokens, white space, keywords and comments, at every stage.
-/

namespace Stepwise.Exercise.Tokens

variable (st : Stage)

/-- The value of a word's token: its spelling up to `conditions`, none later. -/
def spelled (word : String) : Option Value :=
  if st.has .blocks then none else some (.text word)

/-- The text is one token with this tag and value. -/
def single (code tag : String) (value : Value) : Action Unit := do
  match ← tokenize st code with
  | [t] =>
    expect ((← t.field "tag").isText tag)
    expect ((← t.field "value").equal value)
  | _ => throw .violation

/-- The text has exactly these tokens. -/
def tokensAre (code : String) (expected : List Token) : Action Unit := do
  expect (Value.equalItems (← tokenize st code) expected)

/-- The two texts count as the same. -/
def same (a b : String) : Action Unit := do
  expect (← sameTokens st a b)

/-- Operators that are tried one by one. -/
def operatorExamples : List String :=
  [".", "[", "]", "+", "-", "*", "/", "(", ")", "\x7b", "\x7d", ";"] ++
    if st.has .booleans then ["!", "&&", "||", "<", ">", "<=", ">=", "==", "!="] else []

/-- Operators alone, and a row of them with blanks between. -/
def simpleTokens : Action Unit := do
  forEach (operatorExamples st) fun word =>
    tokensAre st word [Token.make word (spelled st word) 0]
  let row := "(*/ +-[]" ++ braced "" ++ ")  "
  let tags ← Action.lift ((← tokenize st row).mapM (Value.field "tag"))
  let marks := (row.toList.filter (· != ' ')).map fun c => Value.text (String.singleton c)
  expect (Value.equalItems tags marks)

/-- Numbers with and without a point. -/
def numbers : Action Unit :=
  forEach ["1", "22", "12.1", "0", "12.", "123145", ".1234"] fun s =>
    single st s st.numberTag (.float (Number.read s))

/-- Texts, one with a quote inside. -/
def strings : Action Unit :=
  forEach ["example", "this is a longer example", "an embedded \" quote"] fun s =>
    single st ("\"" ++ "\"\"".intercalate (s.splitOn "\"") ++ "\"") st.stringTag (.text s)

/-- The two truth values and null. -/
def booleans : Action Unit := do
  single st "true" st.booleanTag (.bool true)
  single st "false" st.booleanTag (.bool false)
  tokensAre st "null" [Token.make "null" (if st.has .blocks then none else some .null) 0]

/-- Names. -/
def names : Action Unit :=
  forEach ["x", "y", "z", "alpha", "beta", "gamma"] fun s =>
    single st s st.nameTag (.text s)

/-- White space around a token. -/
def whitespace : Action Unit :=
  forEach ["1", "1  ", "  1", "  1  "] fun s => single st s st.numberTag (.int 1)

/-- The token of a number. -/
def num (n : Int) (position : Nat) : Token :=
  Token.make st.numberTag (some (.int n)) position

/-- The token of an operator. -/
def op (word : String) (position : Nat) : Token :=
  Token.make word (spelled st word) position

/-- Several tokens in a row. -/
def multiple : Action Unit := do
  tokensAre st "1+2" [num st 1 0, op st "+" 1, num st 2 2]
  tokensAre st "1+2-3" [num st 1 0, op st "+" 1, num st 2 2, op st "-" 3, num st 3 4]
  tokensAre st "3+4*(5-2)"
    [num st 3 0, op st "+" 1, num st 4 2, op st "*" 3, op st "(" 4, num st 5 5, op st "-" 6,
     num st 2 7, op st ")" 8]
  same st "3+4*(5-2)" "3 + 4 * (5 - 2)"
  same st "3+4*(5-2)" " 3 + 4 * (5 - 2) "
  same st "3+4*(5-2)" "  3  +  4 * (5 - 2)  "

/-- Every keyword is a token of its own. -/
def keywords : Action Unit :=
  forEach ["function", "return", "if", "else", "while", "for", "break", "continue", "extern",
      "import", "input", "print", "exit"] fun word =>
    tokensAre st word [Token.make word (spelled st word) 0]

/-- Texts with and without comments. -/
def comments : Action Unit := do
  same st "//comment\n" "\n"
  same st "//alpha//comment\n" "alpha\n"
  same st "1+5  //comment\n" "1+5  \n"
  same st "\"beta\"//comment\n" "\"beta\"\n"

/-- The exercises in the order in which they are run. -/
def all : List Exercise :=
  [announced "simple tokens" "testing simple tokens..." (simpleTokens st),
   announced "number tokens" "testing number tokens..." (numbers st),
   announced "boolean tokens" "testing boolean tokens..." (booleans st),
   announced "string tokens" "testing string tokens..." (strings st),
   announced "identifier tokens" "testing identifier tokens..." (names st),
   announced "whitespace" "testing whitespace..." (whitespace st),
   announced "multiple tokens" "testing multiple tokens..." (multiple st),
   announced "keywords" "testing keywords..." (keywords st),
   announced "comments" "testing comments..." (comments st)]

end Stepwise.Exercise.Tokens
