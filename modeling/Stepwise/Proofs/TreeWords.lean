import Stepwise.Proofs.Derivation

/-!
# The words of a tree

A tree says again what was read. `Tree.words` reads the words off its nodes, from left to
right; they are all the words of the phrase that the tree was made from, but for the
parentheses, commas, semicolons and braces, in the order of the phrase
(`Grammar.Derives.words_eq`). So a tree forgets no operator and no operand, and
holds them once each and in their order.

- `Word.kept`: the words of a phrase that its tree keeps. Those of a function statement
  are those of the assignment for which it stands;
- `Tree.lead`: the words that stand in front of a part of a node.
-/

namespace Stepwise

namespace Word

/-- The word as it is written without function statements. -/
def plain : Word → List Word
  | .define => []
  | .defined v => [.name v, .sign "=", .sign "function"]
  | w => [w]

/-- The word is no parenthesis, comma, semicolon or brace. -/
def significant : Word → Bool
  | .sign tag => tag ∉ ["(", ")", ",", ";", "\x7b", "\x7d"]
  | _ => true

/-- The words that the tree of a phrase keeps. -/
def kept (ws : List Word) : List Word :=
  (ws.flatMap plain).filter significant

@[simp] theorem kept_nil : kept [] = [] := rfl

@[simp] theorem kept_append (ws ws' : List Word) : kept (ws ++ ws') = kept ws ++ kept ws' := by
  simp [kept]

/-- Six signs are left out, and all others kept. -/
@[simp] theorem kept_sign (tag : String) (ws : List Word) :
    kept (.sign tag :: ws) =
      if tag ∈ ["(", ")", ",", ";", "\x7b", "\x7d"] then kept ws else .sign tag :: kept ws := by
  by_cases h : tag ∈ ["(", ")", ",", ";", "\x7b", "\x7d"]
  · simp [kept, plain, significant, h]
  · simp [kept, plain, significant, h]

@[simp] theorem kept_name (v : Value) (ws : List Word) :
    kept (.name v :: ws) = .name v :: kept ws := rfl

theorem kept_semicolons (n : Nat) : kept (List.replicate n (.sign ";")) = [] := by
  induction n with
  | zero => rfl
  | succ n ih => simp [List.replicate_succ, ih]

end Word

namespace Tree

/-- The tag of a node. -/
def tagOf (fields : Fields) : String :=
  match Fields.get? "tag" fields with
  | some (.text tag) => tag
  | _ => ""

/-- The words in front of the part of a node: a keyword or sign in front of them all, the
sign of an assignment or operator between the two parts, and an `else`. -/
def lead (tag : String) (part : Key) : List Word :=
  if part = "tag" then
    if tag = "negate" then [.sign "-"] else if tag = "not" then [.sign "!"]
    else if tag ∈ ["function", "if", "while", "return", "print"] then [.sign tag] else []
  else if part = "right" then [.sign tag]
  else if part = "value" ∧ tag = "=" then [.sign "="]
  else if part = "else" then [.sign "else"]
  else []

/-- The word of a leaf, if the part of a node is that of a leaf. -/
def leafWord (tag : String) (part : Key) (v : Value) : Option Word :=
  if part = "value" then
    if tag = "<number>" then some (.number v)
    else if tag = "<boolean>" then some (.boolean v)
    else if tag = "<identifier>" then some (.name v)
    else none
  else none

mutual

/-- The words of a tree, from left to right. -/
def words : Tree → List Word
  | .record fields => wordsOf (tagOf fields) fields
  | _ => []

/-- The words of the parts of a node with this tag. -/
def wordsOf (tag : String) : Fields → List Word
  | [] => []
  | (part, v) :: rest =>
    (match leafWord tag part v with
      | some w => [w]
      | none => lead tag part ++ words v) ++ wordsOf tag rest

end

/-! ### The words of each kind of node -/

theorem wordsOf_nil (tag : String) : wordsOf tag [] = [] := rfl

theorem wordsOf_cons (tag : String) (part : Key) (v : Value) (rest : Fields) :
    wordsOf tag ((part, v) :: rest) = (match leafWord tag part v with
      | some w => [w]
      | none => lead tag part ++ words v) ++ wordsOf tag rest := rfl

/-- A node's words are those of its tag and of its parts, in their order. -/
theorem words_node (tag : String) (parts : Fields) :
    words (node tag parts) = lead tag "tag" ++ wordsOf tag parts := by
  show wordsOf tag (("tag", .text tag) :: parts) = _
  have htext : words (.text tag) = [] := rfl
  simp [wordsOf_cons, leafWord, htext]

/-- The words of more parts stand behind those of the first ones. -/
theorem wordsOf_append (tag : String) (fields fields' : Fields) :
    wordsOf tag (fields ++ fields') = wordsOf tag fields ++ wordsOf tag fields' := by
  induction fields with
  | nil => rfl
  | cons field fields ih =>
    obtain ⟨part, v⟩ := field
    simp [wordsOf_cons, ih]

theorem words_negate (e : Tree) :
    words (unary .returns "negate" e) = .sign "-" :: words e := by
  show words (node "negate" [("value", e)]) = _
  simp [words_node, wordsOf_nil, wordsOf_cons, leafWord, lead]

theorem words_not (e : Tree) : words (unary .returns "not" e) = .sign "!" :: words e := by
  show words (node "not" [("value", e)]) = _
  simp [words_node, wordsOf_nil, wordsOf_cons, leafWord, lead]

/-- An operator stands between its operands. -/
theorem words_binary {tag : String} (htag : tag ∈ Rule.operators) (left right : Tree) :
    words (binary .returns tag left right) = words left ++ .sign tag :: words right := by
  show words (node tag [("left", left), ("right", right)]) = _
  have hlead : lead tag "tag" = [] := by
    revert tag
    simp [Rule.operators, lead]
  have hleft : lead tag "left" = [] := by simp [lead]
  have hright : lead tag "right" = [.sign tag] := by simp [lead]
  simp [words_node, wordsOf_nil, wordsOf_cons, leafWord, hlead, hleft, hright]

/-- The parentheses of a call are left out. -/
theorem words_call (f es : Tree) : words (call .returns f es) = words f ++ words es := by
  show words (node "<function_call>" [("expression", f), ("arguments", es)]) = _
  simp [words_node, wordsOf_nil, wordsOf_cons, leafWord, lead]

/-- A function starts with its keyword. The parentheses and braces are left out. -/
theorem words_function (xs body : Tree) :
    words (function xs body) = .sign "function" :: words xs ++ words body := by
  simp [function, words_node, wordsOf_nil, wordsOf_cons, leafWord, lead]

/-- The sign of an assignment stands in front of its value. -/
theorem words_assign (v : Value) (e : Tree) :
    words (assign .returns (leaf .returns "<identifier>" v) e) =
      .name v :: .sign "=" :: words e := by
  show words (node "=" [("target", leaf .returns "<identifier>" v), ("value", e)]) = _
  have hleaf : words (leaf .returns "<identifier>" v) = [.name v] := rfl
  simp [words_node, wordsOf_nil, wordsOf_cons, leafWord, lead, hleaf]

/-- The braces of a block are left out. -/
theorem words_block_last (s : Tree) : words (node "block" [("statement", s)]) = words s := by
  simp [words_node, wordsOf_nil, wordsOf_cons, leafWord, lead]

/-- So are the semicolons between its statements. -/
theorem words_block_next (s body : Tree) :
    words (node "block" [("statement", s), ("next", body)]) = words s ++ words body := by
  simp [words_node, wordsOf_nil, wordsOf_cons, leafWord, lead]

/-- The parentheses around a condition are left out. -/
theorem words_branch_none (c s : Tree) :
    words (branch .returns c s none) = .sign "if" :: words c ++ words s := by
  show words (node "if" [("condition", c), ("then", s)]) = _
  simp [words_node, wordsOf_nil, wordsOf_cons, leafWord, lead]

/-- The `else` stands in front of the alternative. -/
theorem words_branch_some (c s a : Tree) : words (branch .returns c s (some a)) =
    .sign "if" :: words c ++ words s ++ .sign "else" :: words a := by
  show words (node "if" [("condition", c), ("then", s), ("else", a)]) = _
  simp [words_node, wordsOf_nil, wordsOf_cons, leafWord, lead]

theorem words_loop (c s : Tree) :
    words (loop .returns c s) = .sign "while" :: words c ++ words s := by
  show words (node "while" [("condition", c), ("do", s)]) = _
  simp [words_node, wordsOf_nil, wordsOf_cons, leafWord, lead]

theorem words_giveBack (e : Tree) : words (giveBack (some e)) = .sign "return" :: words e := by
  show words (node "return" [("value", e)]) = _
  simp [words_node, wordsOf_nil, wordsOf_cons, leafWord, lead]

theorem words_output (es : Tree) : words (output es) = .sign "print" :: words es := by
  simp [output, words_node, wordsOf_nil, wordsOf_cons, leafWord, lead]

/-- The words of a chain are those of its members, one after the other. -/
theorem words_follow {t : Tree} (ht : ∃ tag parts, t = node tag parts ∧
    Fields.get? "next" parts = none) (next : Tree) :
    words (follow next t) = words t ++ words next := by
  obtain ⟨tag, parts, rfl, hnext⟩ := ht
  have hset : follow next (node tag parts) = node tag (parts ++ [(Key.text "next", next)]) := by
    simp [follow, node, Fields.set, Fields.set_of_get?_eq_none next hnext]
  rw [hset, words_node, words_node, wordsOf_append]
  simp [wordsOf_nil, wordsOf_cons, leafWord, lead]

end Tree

/-- **A tree has the words of its phrase**, in their order. -/
theorem Grammar.Derives.words_eq {closed : Tree → Prop} {ph : Phrase} {ws : List Word} {t : Tree}
    (h : Derives closed ph ws t) : Word.kept ws = t.words := by
  induction h with
  | number v | boolean v | name v | lastName v => rfl
  | noNames | noExpressions | giveBack => rfl
  | parenthesized _ ih | someNames _ ih | someExpressions _ ih => simp [ih]
  | function _ ih | uncalled _ ih | factor _ ih | operand _ _ ih | plain _ ih | expression _ ih
  | lastExpression _ ih | statement _ _ ih => exact ih
  | negated _ ih => simp [ih, Tree.words_negate]
  | not _ ih => simp [ih, Tree.words_not]
  | called _ _ ihf ihes => simp [ihf, ihes, Tree.words_call]
  | binary hr htag _ _ ihl ihr =>
    have hmem := (level_isExpression hr).2.2 htag
    have hsign : ∀ tag ∈ Rule.operators, tag ∉ ["(", ")", ",", ";", "\x7b", "\x7d"] := by decide
    rw [Word.kept_append, Word.kept_sign, if_neg (hsign _ hmem), ihl, ihr, Tree.words_binary hmem]
  | literal _ _ ihxs ihbody => simp [ihxs, ihbody, Tree.words_function]
  | moreNames v _ ih =>
    have hleaf : (Tree.leaf .returns "<identifier>" v).words = [.name v] := rfl
    rw [Tree.words_follow (t := Tree.leaf .returns "<identifier>" v) ⟨_, [("value", v)], rfl, rfl⟩,
      hleaf]
    simp [ih]
  | moreExpressions he _ ihe ihes =>
    obtain ⟨tag, parts, ht, -, hnext⟩ := he.expression_node rfl
    rw [Tree.words_follow ⟨tag, parts, ht, hnext⟩]
    simp [ihe, ihes]
  | assignment v _ ih => simp [ih, Tree.words_assign]
  | emptyBlock n =>
    have hblock : (Tree.block []).words = [] := rfl
    simp [Word.kept_semicolons, hblock]
  | block n k _ ih => simp [ih, Word.kept_semicolons]
  | lastStatement _ ih => rw [ih, Tree.words_block_last]
  | moreStatements n _ _ ihs ihbody =>
    simp [ihs, ihbody, Word.kept_semicolons, Tree.words_block_next]
  | ifThen _ _ ihc ihs => simp [ihc, ihs, Tree.words_branch_none]
  | ifElse _ _ _ _ ihc ihs iha => simp [ihc, ihs, iha, Tree.words_branch_some]
  | loop _ _ ihc ihs => simp [ihc, ihs, Tree.words_loop]
  | giveBackValue _ ih => simp [ih, Tree.words_giveBack]
  | print _ ih => simp [ih, Tree.words_output]
  | @functionStatement v p e _ ih =>
    -- the name and the sign that were put in front of the function
    have hkept : Word.kept (.define :: .defined v :: p) =
        .name v :: .sign "=" :: Word.kept (.sign "function" :: p) := rfl
    rw [hkept, ih, Tree.words_assign]

end Stepwise
