import Stepwise.Proofs.Settling
import Stepwise.Proofs.StatementStages
import Stepwise.Proofs.TokenStages

/-!
# The restyled trees of `blocks`

Up to `conditions` all expression nodes have the same four fields; `blocks` gives every node
just the fields it needs, under names of its own, and writes the tags of literals in angle
brackets. `Tree.restyle` is this change, and it is all that changes: a text without control
flow and comments has the restyled tree at `blocks`, and its evaluation does the same.

- `Tree.restyle`: the node of `blocks` for a node of `conditions`;
- `Program.tree_restyled`: the parsers in step, on texts without control flow and comments;
- `Program.blocks_restyles_conditions`: the comparison of the two stages.
-/

namespace Stepwise

open Token (Is)
open Action (Agree)

/-! ## Restyled trees -/

namespace Tree

/-- The tag that `blocks` gives to a node. -/
def restyledTag (tag : String) : String :=
  if tag ∈ Stage.literals then "<" ++ tag ++ ">" else tag

/-- The field in which `blocks` keeps what was the left operand. -/
def restyledLeft (tag : String) : String :=
  if tag = "negate" ∨ tag = "not" then "value" else if tag = "=" then "target" else "left"

/-- The field in which `blocks` keeps what was the right operand. -/
def restyledRight (tag : String) : String :=
  if tag = "=" then "value" else "right"

/-- A node without the parts that are null. -/
def trimmed (tag : String) (parts : Fields) : Tree :=
  node tag (parts.filter fun part => !part.2.isNull)

/-- The node of `blocks` for a node of `conditions` with its four fields. -/
def restyle : Tree → Tree
  | .record [(_, .text tag), (_, value), (_, left), (_, right)] =>
    trimmed (restyledTag tag)
      [("value", value), (restyledLeft tag, restyle left), (restyledRight tag, restyle right)]
  | other => other

/-- A node with the four fields keeps those that hold something, under their new names. -/
theorem restyle_uniform (tag : String) (value left right : Value) :
    restyle (uniform tag value left right) = trimmed (restyledTag tag)
      [("value", value), (restyledLeft tag, restyle left), (restyledRight tag, restyle right)] := by
  rw [uniform, node, restyle]

/-- The first stage keeps four fields, the second does not. -/
theorem has_blocks : Stage.has .conditions .blocks = false ∧ Stage.has .blocks .blocks = true := by
  decide

theorem isNull_null : Value.isNull .null = true := rfl

theorem restyle_null : restyle .null = .null := rfl

/-- A node with one operand. It holds no value and no right operand. -/
theorem restyle_unary {tag : String} (htag : tag = "negate" ∨ tag = "not") {t : Tree}
    (ht : Value.isNull (restyle t) = false) :
    restyle (unary .conditions tag t) = unary .blocks tag (restyle t) := by
  have hstyle : restyledTag tag = tag ∧ restyledLeft tag = "value" := by
    rcases htag with rfl | rfl <;> decide
  simp [unary, has_blocks, restyle_uniform, hstyle, trimmed, isNull_null, restyle_null, ht]

/-- A node with two operands. It holds no value. -/
theorem restyle_binary (op : Operator) {l r : Tree} (hl : Value.isNull (restyle l) = false)
    (hr : Value.isNull (restyle r) = false) :
    restyle (binary .conditions op.sign l r) = binary .blocks op.sign (restyle l) (restyle r) := by
  have hstyle : restyledTag op.sign = op.sign ∧ restyledLeft op.sign = "left" ∧
      restyledRight op.sign = "right" := by
    cases op <;> decide
  simp [binary, has_blocks, restyle_uniform, hstyle, trimmed, isNull_null, hl, hr]

theorem restyle_assign {target value : Tree} (ht : Value.isNull (restyle target) = false)
    (hv : Value.isNull (restyle value) = false) :
    restyle (assign .conditions target value) =
      assign .blocks (restyle target) (restyle value) := by
  have hstyle : restyledTag "=" = "=" ∧ restyledLeft "=" = "target" ∧
      restyledRight "=" = "value" := by
    decide
  simp [assign, has_blocks, restyle_uniform, hstyle, trimmed, isNull_null, ht, hv]

end Tree

open Tree (restyle)

/-- The tree of an expression is there, so that restyling its node keeps it. -/
theorem Expression.tree_not_null (st : Stage) (e : Expression) :
    Value.isNull (e.tree st) = false := by
  cases e <;> cases st <;> rfl

/-- **Restyling is what `blocks` does to an expression.** -/
theorem Expression.restyle_tree {truths : Bool} : ∀ {e : Expression}, e.elementary truths = true →
    restyle (e.tree .conditions) = e.tree .blocks
  | .number v, _ => by cases v <;> rfl
  | .boolean _, _ | .name _, _ => rfl
  | .negate e, he | .not e, he => by
    have ih := Expression.restyle_tree (e := e) he
    simp only [Expression.tree]
    rw [Tree.restyle_unary (by simp) (by rw [ih]; exact e.tree_not_null _), ih]
  | .binary op l r, he => by
    simp only [Expression.elementary, Bool.and_eq_true] at he
    have ihl := Expression.restyle_tree he.1
    have ihr := Expression.restyle_tree he.2
    simp only [Expression.tree]
    rw [Tree.restyle_binary op (by rw [ihl]; exact l.tree_not_null _)
      (by rw [ihr]; exact r.tree_not_null _), ihl, ihr]
  | .call _ _, he | .function _ _, he => by cases he

/-- **The restyled tree is that of `blocks`**, for assignments and expressions. -/
theorem Statement.restyle_tree {truths : Bool} {s : Statement} (hs : s.plain truths = true) :
    restyle (s.tree .conditions) = s.tree .blocks := by
  cases s with
  | expression e => exact Expression.restyle_tree (e := e) hs
  | assign x e =>
    have ihe := Expression.restyle_tree (e := e) hs
    have ihx : restyle (x.tree .conditions) = x.tree .blocks := rfl
    simp only [Statement.tree]
    rw [Tree.restyle_assign rfl (by rw [ihe]; exact e.tree_not_null _), ihx, ihe]
  | block | branch | loop | giveBack | print => cases hs

/-! ## From `conditions` to `blocks` -/

/-- Names are looked up in one record at both stages. -/
theorem Stage.alike_conditions_blocks : Stage.Alike (fun _ => True) false .conditions .blocks where
  booleans := ⟨rfl, rfl⟩
  lookup _ _ _ := rfl
  assign _ _ _ _ := trivial
  truth h := by cases h

/-- Both stages do the same with assignments and expressions. -/
theorem plain_agree {s : Statement} (hs : s.plain false = true) (n : Nat) :
    Agree (fun _ => True) (evaluate .conditions n .statement (s.tree .conditions))
      (evaluate .blocks n .statement (s.tree .blocks)) := by
  cases s with
  | assign x e => exact assign_agree Stage.alike_conditions_blocks hs n
  | expression e => exact expression_agree Stage.alike_conditions_blocks (e := e) hs n .statement
  | block | branch | loop | giveBack | print => cases hs

/-- Assignments and expressions come to an end. -/
theorem plain_settles {s : Statement} (hs : s.plain false = true) :
    ∃ n, Action.Settles (evaluate .conditions n .statement (s.tree .conditions)) := by
  cases s with
  | assign x e => exact assign_settles rfl hs
  | expression e =>
    have hbooleans : Stage.has .conditions .booleans = true := rfl
    obtain ⟨least, h⟩ := expression_settles hbooleans (e := e) hs
    exact ⟨least, h least (Nat.le_refl _) .statement⟩
  | block | branch | loop | giveBack | print => cases hs

/-- A text that does not start with a word of control flow is read in step. -/
theorem Program.tree_restyled {truths : Bool} {code : String} {ts : List Token} {t : Tree}
    (hcomment : ¬ ['/', '/'] <:+: code.toList) (htokens : tokenize .conditions code = .ok ts)
    (hstart : ∀ first ∈ ts.head?, ¬ Is "if" first ∧ ¬ Is "while" first)
    (htruths : truths = true ∨ ∀ token ∈ ts, ¬ Is (Stage.booleanTag .conditions) token)
    (hparse : parse .conditions ts = .ok t) :
    ∃ s : Statement, s.plain truths = true ∧ t = s.tree .conditions ∧
      Program.tree .blocks code = .ok (s.tree .blocks) := by
  have hcuts : Lexeme.SameCuts .conditions .blocks code.toList := .inr hcomment
  obtain ⟨ts', htokens', haligned⟩ := tokenize_aligned truths rfl rfl hcuts ts htokens htruths
  -- the hypothesis is about tokens, and the rules look at tags
  have hwords : Rule.Stops ["if", "while"] (ts ++ [Token.ending]) := by
    cases ts with
    | nil => exact .ending _
    | cons first rest =>
      obtain ⟨hif, hwhile⟩ := hstart first rfl
      obtain ⟨_, _, hmatch, -, -⟩ := List.forall₂_cons_left_iff.1 haligned
      obtain ⟨v, -, hv, -, -⟩ := hmatch.tags
      refine ⟨v, hv, ?_⟩
      simp only [List.mem_cons, List.not_mem_nil, or_false]
      rintro tag (rfl | rfl) rfl
      · exact hif hv
      · exact hwhile hv
  obtain ⟨rest, hread⟩ := (parse_eq_ok_iff rfl).1 hparse
  obtain ⟨s, rest', hs, htree, hread', -⟩ :=
    Rule.apply_plain rfl rfl rfl (by decide) _ haligned hwords (by rintro ⟨⟩) _ hread (by rintro ⟨⟩)
  refine ⟨s, hs, htree, ?_⟩
  rw [Program.tree_eq_parse htokens', parse_eq_ok_iff rfl]
  exact ⟨rest', hread'⟩

/-- **`blocks` restyles `conditions` and changes nothing else.** Take a text without `//` that
does not start with `if` or `while` and that `conditions` reads. At `blocks` it has the restyled
tree, and if it has no truth values the two evaluators do the same to the two trees on every
machine: they agree at every budget, and with enough of it both come to the same end. -/
theorem Program.blocks_restyles_conditions {code : String} {ts : List Token} {t : Tree}
    (hcomment : ¬ ['/', '/'] <:+: code.toList) (htokens : tokenize .conditions code = .ok ts)
    (hstart : ∀ first ∈ ts.head?, ¬ Is "if" first ∧ ¬ Is "while" first)
    (hparse : parse .conditions ts = .ok t) :
    Program.tree .blocks code = .ok (restyle t) ∧
      ((∀ token ∈ ts, ¬ Is (Stage.booleanTag .conditions) token) → ∀ m : Machine,
        (∀ n, evaluate .blocks n .statement (restyle t) m =
          evaluate .conditions n .statement t m) ∧
        ∃ r m', Ends .conditions .statement t m r m' ∧
          Ends .blocks .statement (restyle t) m r m') := by
  constructor
  · obtain ⟨s, hs, rfl, htree⟩ := Program.tree_restyled hcomment htokens hstart (.inl rfl) hparse
    rw [htree, Statement.restyle_tree hs]
  · intro htruths m
    obtain ⟨s, hs, rfl, -⟩ :=
      Program.tree_restyled hcomment htokens hstart (.inr htruths) hparse
    rw [Statement.restyle_tree hs]
    have hagree : ∀ n, evaluate .blocks n .statement (s.tree .blocks) m =
        evaluate .conditions n .statement (s.tree .conditions) m :=
      fun n => ((plain_agree hs n).result m trivial).1
    obtain ⟨n, hsettles⟩ := plain_settles hs
    exact ⟨hagree, _, _, hsettles.reaches m, (hsettles m).ne_exhausted, n, hagree n⟩

namespace Program

/-- The tokens of `x=!(-y<2)` at the earlier stage. -/
def negationTokens : List Token :=
  [.make "identifier" (some (.text "x")) 0, .make "=" (some (.text "=")) 1,
    .make "!" (some (.text "!")) 2, .make "(" (some (.text "(")) 3, .make "-" (some (.text "-")) 4,
    .make "identifier" (some (.text "y")) 5, .make "<" (some (.text "<")) 6,
    .make "number" (some (.int 2)) 7, .make ")" (some (.text ")")) 8]

/-- The tree of `x=!(-y<2)` in the style of a stage. -/
def negation (st : Stage) : Tree :=
  Tree.assign st (Tree.leaf st st.nameTag (.text "x"))
    (Tree.unary st "not" (Tree.binary st "<"
      (Tree.unary st "negate" (Tree.leaf st st.nameTag (.text "y")))
      (Tree.leaf st st.numberTag (.int 2))))

theorem blocks_restyles_conditions_negation :
    tokenize .conditions "x=!(-y<2)" = .ok negationTokens ∧
      parse .conditions negationTokens = .ok (negation .conditions) ∧
      Program.tree .blocks "x=!(-y<2)" = .ok (negation .blocks) ∧
      ∀ (m : Machine) (n : Nat), evaluate .blocks n .statement (negation .blocks) m =
        evaluate .conditions n .statement (negation .conditions) m := by
  have hcomment : ¬ ['/', '/'] <:+: "x=!(-y<2)".toList := by
    intro h
    have hslash : '/' ∈ "x=!(-y<2)".toList := h.subset List.mem_cons_self
    simp at hslash
  have htokens : tokenize .conditions "x=!(-y<2)" = .ok negationTokens := by rfl
  have hparse : parse .conditions negationTokens = .ok (negation .conditions) := by rfl
  have hstart : ∀ first ∈ negationTokens.head?, ¬ Is "if" first ∧ ¬ Is "while" first := by
    simp [negationTokens, Is, Token.make, Value.field, Fields.get?]
  have htruths : ∀ token ∈ negationTokens, ¬ Is (Stage.booleanTag .conditions) token := by
    simp [negationTokens, Is, Token.make, Value.field, Fields.get?, Stage.booleanTag,
      Stage.literalTag, Stage.has, Stage.rank]
  have hrestyle : restyle (negation .conditions) = negation .blocks := by rfl
  obtain ⟨htree, hruns⟩ := blocks_restyles_conditions hcomment htokens hstart hparse
  rw [hrestyle] at htree hruns
  exact ⟨htokens, hparse, htree, fun m n => (hruns htruths m).1 n⟩

end Program

end Stepwise
