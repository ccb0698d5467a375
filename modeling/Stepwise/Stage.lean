/-!
# Stages of the language

The language grows in eight stages, each with a tokenizer, a grammar and an
evaluator. `Stage.rank` numbers them; a feature is asked for by the stage that
brings it (`st.has .blocks`).
-/

namespace Stepwise

/-- A stage, named for what it adds. -/
inductive Stage where
  /-- Arithmetic on numbers. -/
  | expressions
  /-- Names and assignment. -/
  | assignments
  /-- Comparisons and logical operators. -/
  | booleans
  /-- `if` and `while` in the grammar. -/
  | conditions
  /-- Blocks, and control flow in the evaluator. -/
  | blocks
  /-- Names are looked up through enclosing frames. -/
  | scopes
  /-- Functions, calls and printing. -/
  | functions
  /-- `return` ends the function that it stands in. -/
  | returns
deriving DecidableEq, Repr

namespace Stage

/-- The stages in order. -/
def all : List Stage :=
  [.expressions, .assignments, .booleans, .conditions, .blocks, .scopes, .functions, .returns]

/-- The number of a stage, from 1. -/
def rank : Stage → Nat
  | .expressions => 1
  | .assignments => 2
  | .booleans => 3
  | .conditions => 4
  | .blocks => 5
  | .scopes => 6
  | .functions => 7
  | .returns => 8

/-- The stage with a number. -/
def ofRank? (n : Nat) : Option Stage :=
  all.find? (·.rank == n)

/-- The stage has what `feature` brought. -/
def has (st feature : Stage) : Bool :=
  feature.rank ≤ st.rank

theorem has_of_rank_le {st feature earlier : Stage} (h : st.has feature = true)
    (hrank : earlier.rank ≤ feature.rank) : st.has earlier = true :=
  decide_eq_true (Nat.le_trans hrank (of_decide_eq_true h))

/-- A literal's tag: up to `conditions` a plain word, from `blocks` on one in angle brackets. -/
def literalTag (st : Stage) (word : String) : String :=
  if st.has .blocks then "<" ++ word ++ ">" else word

/-- The tag of numbers. -/
def numberTag (st : Stage) : String := st.literalTag "number"

/-- The tag of texts. -/
def stringTag (st : Stage) : String := st.literalTag "string"

/-- The tag of truth values. -/
def booleanTag (st : Stage) : String := st.literalTag "boolean"

/-- The tag of names. -/
def nameTag (st : Stage) : String := st.literalTag "identifier"

end Stage

end Stepwise
