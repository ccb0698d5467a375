import Stepwise.Proofs.ParserComplete

/-!
# Expressions have one tree

Expressions without functions inside: the grammar derives each of them with one tree, and
the parser finds it, whatever stands behind that is no operator and no list of arguments
(`Grammar.expression_read_uniquely`).

- `Grammar.strength`: how tight an operator binds, and `Rule.ofStrength`: the rule whose
  phrases may stand beside such an operator;
- `Derives.loosen`: what binds tighter may stand where something looser is asked for;
- `Derives.operators_group`: of two operators the stronger one takes the operand between
  them, and of two equally strong ones the left one;
- `Derives.of_plain`: without functions there is no `if` in an expression, so it does not
  matter which statements may stand before an `else`.
-/

namespace Stepwise

open Token (headTag Is Bears)

/-- The rules of expressions, from the loosest to the tightest. -/
def Rule.ofStrength : Nat → Rule
  | 0 => .expression
  | 1 => .disjunction
  | 2 => .conjunction
  | 3 => .negation
  | 4 => .comparison
  | 5 => .sum
  | 6 => .product
  | 7 => .factor
  | 8 => .callable
  | _ => .simple

namespace Grammar

open Rule (ofStrength operators)

/-- How tight an operator binds; calls and the minus before an operand bind tighter still. -/
def strength (op : String) : Nat :=
  if op = "||" then 1
  else if op = "&&" then 2
  else if op = "!" then 3
  else if op ∈ ["<", ">", "<=", ">=", "==", "!="] then 4
  else if op ∈ ["+", "-"] then 5
  else 6

/-- The strengths of operators are those between an expression and a factor. -/
theorem strength_operator {op : String} (h : op ∈ operators) :
    1 ≤ strength op ∧ strength op ≤ 6 := by
  revert op
  decide

/-- An operator stands between what is as strong as itself and what is stronger. -/
theorem level_of_strength {op : String} (h : op ∈ operators) : ∃ signs,
    (ofStrength (strength op)).level? = some (ofStrength (strength op + 1), signs) ∧
      op ∈ signs := by
  simp only [operators, List.mem_cons, List.not_mem_nil, or_false] at h
  rcases h with rfl | rfl | rfl | rfl | rfl | rfl | rfl | rfl | rfl | rfl | rfl | rfl <;>
    exact ⟨_, rfl, by decide⟩

namespace Derives

variable {closed closed' : Tree → Prop} {p q : List Word} {e e' : Tree} {op op' : String}

/-- A phrase of one strength is one of the strength below. -/
theorem loosen_one (i : Nat) (h : Derives closed (.rule (ofStrength (i + 1))) p e) :
    Derives closed (.rule (ofStrength i)) p e := by
  match i with
  | 0 => exact .expression h
  | 1 => exact .operand rfl h
  | 2 => exact .operand rfl h
  | 3 => exact .plain h
  | 4 => exact .operand rfl h
  | 5 => exact .operand rfl h
  | 6 => exact .operand rfl h
  | 7 => exact .factor h
  | 8 => exact .uncalled h
  | _ + 9 => exact h

/-- A phrase is one of every smaller strength. -/
theorem loosen {i j : Nat} (hij : i ≤ j) (h : Derives closed (.rule (ofStrength j)) p e) :
    Derives closed (.rule (ofStrength i)) p e := by
  induction hij with
  | refl => exact h
  | step _ ih => exact ih (loosen_one _ h)

theorem of_callable {i : Nat} (hi : i ≤ 8) (h : Derives closed (.rule .callable) p e) :
    Derives closed (.rule (ofStrength i)) p e :=
  loosen hi h

/-- An operator between a phrase of its strength and one of more makes a phrase of its strength. -/
theorem operator (hop : op ∈ operators)
    (hleft : Derives closed (.rule (ofStrength (strength op))) p e)
    (hright : Derives closed (.rule (ofStrength (strength op + 1))) q e') :
    Derives closed (.rule (ofStrength (strength op))) (p ++ .sign op :: q)
      (Tree.binary .returns op e e') := by
  obtain ⟨signs, hlevel, hmem⟩ := level_of_strength hop
  exact .binary hlevel hmem hleft hright

/-- **Precedence and association**: of two operators, the one that binds tighter takes the
operand between them; if both bind alike, it is the left one. -/
theorem operators_group {pa pb pc : List Word} {a b c : Tree} (hop : op ∈ operators)
    (hop' : op' ∈ operators) (ha : Derives closed (.rule .callable) pa a)
    (hb : Derives closed (.rule .callable) pb b) (hc : Derives closed (.rule .callable) pc c) :
    Derives closed (.rule .expression) (pa ++ .sign op :: (pb ++ .sign op' :: pc))
      (if strength op < strength op' then
        Tree.binary .returns op a (Tree.binary .returns op' b c)
      else Tree.binary .returns op' (Tree.binary .returns op a b) c) := by
  have hle := (strength_operator hop).2
  have hle' := (strength_operator hop').2
  by_cases hlt : strength op < strength op'
  · rw [if_pos hlt]
    have hright := operator hop' (of_callable (by omega) hb) (of_callable (by omega) hc)
    have hall := operator hop (of_callable (by omega) ha) (loosen hlt hright)
    exact loosen (Nat.zero_le _) hall
  · rw [if_neg hlt]
    have hleft := operator hop (of_callable (by omega) ha) (of_callable (by omega) hb)
    have hall := operator hop' (loosen (Nat.le_of_not_lt hlt) hleft) (of_callable (by omega) hc)
    rw [List.append_assoc, List.cons_append] at hall
    exact loosen (Nat.zero_le _) hall

/-- A `!` takes the comparison behind it, but not more. -/
theorem not_group {pa pb : List Word} {a b : Tree} (hop : op ∈ operators)
    (ha : Derives closed (.rule .callable) pa a) (hb : Derives closed (.rule .callable) pb b) :
    Derives closed (.rule .expression) (.sign "!" :: (pa ++ .sign op :: pb))
      (if strength "!" < strength op then
        Tree.unary .returns "not" (Tree.binary .returns op a b)
      else Tree.binary .returns op (Tree.unary .returns "not" a) b) := by
  have hnot : strength "!" = 3 := rfl
  have hle := (strength_operator hop).2
  by_cases hlt : strength "!" < strength op
  · rw [if_pos hlt]
    have hall := operator hop (of_callable (by omega) ha) (of_callable (by omega) hb)
    have hnegation : Derives closed (.rule (ofStrength 3)) _ _ := loosen (by omega) hall
    exact loosen (j := 3) (Nat.zero_le _) (.not hnegation)
  · rw [if_neg hlt]
    have hnegation : Derives closed (.rule (ofStrength 3)) pa a := of_callable (by omega) ha
    have hleft : Derives closed (.rule (ofStrength 3)) _ _ := .not hnegation
    have hall := operator hop (loosen (by omega) hleft) (of_callable (by omega) hb)
    exact loosen (Nat.zero_le _) hall

end Derives

/-- The phrases in an expression without functions. -/
def Phrase.isPlain (ph : Phrase) : Bool :=
  ph.isExpression || ph == .rule .expressionList || ph == .expressions

/-- Without functions, it does not matter what may stand before an `else`. -/
theorem Derives.of_plain {closed closed' : Tree → Prop} {ph : Phrase} {ws : List Word} {t : Tree}
    (h : Derives closed ph ws t) (hph : ph.isPlain = true) (hws : ∀ w ∈ ws, w.tag ≠ "function") :
    Derives closed' ph ws t := by
  -- only a function holds statements, and its keyword is excluded
  induction h with
  | number v => exact .number v
  | boolean v => exact .boolean v
  | name v => exact .name v
  | noExpressions => exact .noExpressions
  | literal => exact absurd rfl (hws (.sign "function") (by simp))
  | parenthesized _ ih => exact .parenthesized (ih rfl fun w hw => hws w (by simp [hw]))
  | negated _ ih => exact .negated (ih rfl fun w hw => hws w (by simp [hw]))
  | function _ ih => exact .function (ih rfl hws)
  | uncalled _ ih => exact .uncalled (ih rfl hws)
  | factor _ ih => exact .factor (ih rfl hws)
  | plain _ ih => exact .plain (ih rfl hws)
  | expression _ ih => exact .expression (ih rfl hws)
  | not _ ih => exact .not (ih rfl fun w hw => hws w (by simp [hw]))
  | operand hr _ ih =>
    exact .operand hr (ih (by simp [Phrase.isPlain, (level_isExpression hr).2.1]) hws)
  | binary hr htag _ _ ihl ihr =>
    refine .binary hr htag (ihl hph fun w hw => hws w (by simp [hw])) (ihr ?_ fun w hw => hws w ?_)
    · simp [Phrase.isPlain, (level_isExpression hr).2.1]
    · simp [hw]
  | called _ _ ihf ihes =>
    exact .called (ihf rfl fun w hw => hws w (by simp [hw]))
      (ihes rfl fun w hw => hws w (by simp [hw]))
  | someExpressions _ ih => exact .someExpressions (ih rfl fun w hw => hws w (by simp [hw]))
  | lastExpression _ ih => exact .lastExpression (ih rfl hws)
  | moreExpressions _ _ ihe ihes =>
    exact .moreExpressions (ihe rfl fun w hw => hws w (by simp [hw]))
      (ihes rfl fun w hw => hws w (by simp [hw]))
  | _ => cases hph

/-- An expression without functions is read with its tree, in front of whatever does not
continue it. -/
theorem Derives.read_plain {closed : Tree → Prop} {p rest : List Token} {ws : List Word} {t : Tree}
    (h : Derives closed (.rule .expression) ws t) (hp : List.Forall₂ Bears p ws)
    (hplain : ∀ tok ∈ p, ¬ Is "function" tok) (hrest : Rule.Stops ("(" :: operators) rest) :
    Rule.expression.read .returns (p ++ rest) = .ok (t, rest) := by
  have hspans : Spans (p ++ rest) ws rest := Spans.iff_forall₂.2 ⟨p, rfl, hp⟩
  have hws : ∀ w ∈ ws, w.tag ≠ "function" := by
    clear h hspans
    induction hp with
    | nil => simp
    | cons hbears _ ih =>
      simp only [List.forall_mem_cons] at hplain ⊢
      exact ⟨fun htag => hplain.1 (htag ▸ hbears.is), ih hplain.2⟩
  have hclosed : Derives Tree.Closed (.rule .expression) ws t := h.of_plain rfl hws
  exact hclosed.reads.read rfl hspans hrest

/-- **Completeness for expressions, and one tree for each.** An expression without functions is
read with the tree that the grammar gives it, in front of anything that is no operator and no
opening parenthesis. So the grammar gives it no other tree. In this tree the stronger operator
takes the operand between two, equally strong ones group from the left, and `!` stands between
`&&` and the comparisons. -/
theorem expression_read_uniquely :
    (∀ (p : List Token) (ws : List Word) (t : Tree), List.Forall₂ Bears p ws →
      (∀ tok ∈ p, ¬ Is "function" tok) → Derives (fun _ => True) (.rule .expression) ws t →
      (∀ rest, Rule.Stops ("(" :: operators) rest →
        Rule.expression.read .returns (p ++ rest) = .ok (t, rest)) ∧
      ∀ ws' t', List.Forall₂ Bears p ws' →
        Derives (fun _ => True) (.rule .expression) ws' t' → t' = t) ∧
    (∀ (op op' : String) (pa pb pc : List Word) (a b c : Tree), op ∈ operators → op' ∈ operators →
      Derives (fun _ => True) (.rule .callable) pa a →
      Derives (fun _ => True) (.rule .callable) pb b →
      Derives (fun _ => True) (.rule .callable) pc c →
      Derives (fun _ => True) (.rule .expression) (pa ++ .sign op :: (pb ++ .sign op' :: pc))
        (if strength op < strength op' then
          Tree.binary .returns op a (Tree.binary .returns op' b c)
        else Tree.binary .returns op' (Tree.binary .returns op a b) c)) ∧
    ∀ (op : String) (pa pb : List Word) (a b : Tree), op ∈ operators →
      Derives (fun _ => True) (.rule .callable) pa a →
      Derives (fun _ => True) (.rule .callable) pb b →
      Derives (fun _ => True) (.rule .expression) (.sign "!" :: (pa ++ .sign op :: pb))
        (if strength "!" < strength op then
          Tree.unary .returns "not" (Tree.binary .returns op a b)
        else Tree.binary .returns op (Tree.unary .returns "not" a) b) := by
  refine ⟨fun p ws t hp hplain ht => ?_, ?_, ?_⟩
  · refine ⟨fun rest hrest => ht.read_plain hp hplain hrest, fun ws' t' hp' ht' => ?_⟩
    have hending := Rule.Stops.ending ("(" :: operators)
    have hread := ht.read_plain hp hplain hending
    have hread' := ht'.read_plain hp' hplain hending
    rw [hread] at hread'
    exact (Prod.mk.inj (Except.ok.inj hread')).1.symm
  · intro op op' pa pb pc a b c hop hop' ha hb hc
    exact .operators_group hop hop' ha hb hc
  · intro op pa pb a b hop ha hb
    exact .not_group hop ha hb

/-- The tokens of `x - y * z`. -/
def differenceTokens : List Token :=
  [.make "<identifier>" (some (.text "x")) 0, .make "-" none 2,
   .make "<identifier>" (some (.text "y")) 4, .make "*" none 6,
   .make "<identifier>" (some (.text "z")) 8]

/-- Their words. -/
def differenceWords : List Word :=
  [.name (.text "x"), .sign "-", .name (.text "y"), .sign "*", .name (.text "z")]

/-- The tree in which the product is the right operand. -/
def differenceTree : Tree :=
  let name x := Tree.leaf .returns "<identifier>" (.text x)
  Tree.binary .returns "-" (name "x") (Tree.binary .returns "*" (name "y") (name "z"))

theorem expression_read_uniquely_of_difference :
    List.Forall₂ Bears differenceTokens differenceWords ∧
      (∀ tok ∈ differenceTokens, ¬ Is "function" tok) ∧
      Derives (fun _ => True) (.rule .expression) differenceWords differenceTree ∧
      Rule.Stops ("(" :: operators) [Token.ending] ∧
      Rule.expression.read .returns (differenceTokens ++ [Token.ending]) =
        .ok (differenceTree, [Token.ending]) := by
  have hp : List.Forall₂ Bears differenceTokens differenceWords :=
    .cons ⟨rfl, rfl⟩ (.cons (Eq.refl _) (.cons ⟨rfl, rfl⟩ (.cons (Eq.refl _)
      (.cons ⟨rfl, rfl⟩ .nil))))
  have hplain : ∀ tok ∈ differenceTokens, ¬ Is "function" tok := by
    simp [differenceTokens, Is, Token.make, Value.field, Fields.get?]
  have hname : ∀ x, Derives (fun _ => True) (.rule .callable) [.name (.text x)]
      (Tree.leaf .returns "<identifier>" (.text x)) := fun x => .uncalled (.name (.text x))
  have ht : Derives (fun _ => True) (.rule .expression) differenceWords differenceTree :=
    .operators_group (by decide : "-" ∈ operators) (by decide : "*" ∈ operators)
      (hname "x") (hname "y") (hname "z")
  have hending := Rule.Stops.ending ("(" :: operators)
  exact ⟨hp, hplain, ht, hending, (expression_read_uniquely.1 _ _ _ hp hplain ht).1 _ hending⟩

end Grammar

end Stepwise
