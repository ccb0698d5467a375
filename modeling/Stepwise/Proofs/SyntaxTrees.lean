import Stepwise.Proofs.Syntax

/-!
# A tree determines its syntax

At the last stage different expressions have different trees, and so have
different statements (`Expression.tree_injective`, `Statement.tree_injective`).
What is said of the syntax of a tree is therefore said of the tree, and a function
value, which is kept as a tree, has one list of parameters and one body.

- `Tree.chain_inj`, `Tree.block_inj`: chains and blocks determine their members;
- `Expression.kind_eq`, `Statement.kind_eq`: the tag of a node says of which kind its
  syntax is.
-/

namespace Stepwise

/-! ## Chains and blocks -/

namespace Fields

/-- A new field goes to the end. -/
theorem set_of_get?_eq_none {name : Key} (v : Value) :
    ∀ {fields : Fields}, get? name fields = none → set name v fields = fields ++ [(name, v)]
  | [], _ => rfl
  | (key, w) :: rest, h => by
    by_cases hk : key = name
    · simp [get?, hk] at h
    · simp only [get?, hk, if_false] at h
      simp [set, hk, set_of_get?_eq_none v h]

end Fields

namespace Tree

/-- The node is a record with something in it that is not yet in a chain. -/
def Single (t : Tree) : Prop :=
  ∃ fields : Fields, t = .record fields ∧ fields ≠ [] ∧ Fields.get? "next" fields = none

/-- Equal nodes have equal fields. -/
theorem field_inj {t t' a b : Tree} (name : String) (h : t = t')
    (ha : t.field name = .ok a) (hb : t'.field name = .ok b) : a = b := by
  subst h
  exact Except.ok.inj (ha.symm.trans hb)

/-- A tree in a chain determines itself and what follows it. -/
theorem follow_inj {t t' next next' : Tree} (ht : t.Single) (ht' : t'.Single)
    (h : follow next t = follow next' t') : t = t' ∧ next = next' := by
  obtain ⟨fields, rfl, -, hnext⟩ := ht
  obtain ⟨fields', rfl, -, hnext'⟩ := ht'
  simp only [follow, Fields.set_of_get?_eq_none _ hnext, Fields.set_of_get?_eq_none _ hnext',
    Value.record.injEq] at h
  obtain ⟨rfl, hlast⟩ := List.append_inj' h rfl
  simp only [List.cons.injEq, Prod.mk.injEq, true_and, and_true] at hlast
  exact ⟨rfl, hlast⟩

/-- A tree alone is not one in a chain. -/
theorem Single.ne_follow {t u next : Tree} (ht : t.Single) (hu : u.Single) :
    t ≠ follow next u := by
  obtain ⟨fields, rfl, -, hnext⟩ := ht
  obtain ⟨fields', rfl, -, -⟩ := hu
  simp only [follow]
  rintro ⟨⟩
  rw [Fields.get?_set_self] at hnext
  cases hnext

theorem chain_ne_null {t : Tree} (ht : t.Single) (ts : List Tree) : chain (t :: ts) ≠ .null := by
  obtain ⟨fields, rfl, -, -⟩ := ht
  cases ts with
  | nil => simp [chain]
  | cons u us => simp [chain, follow]

/-- A chain determines its members. -/
theorem chain_inj : ∀ {ts us : List Tree}, (∀ t ∈ ts, Single t) → (∀ u ∈ us, Single u) →
    chain ts = chain us → ts = us
  | [], [], _, _, _ => rfl
  | [], u :: _, _, hu, h => absurd h.symm (chain_ne_null (hu u (by simp)) _)
  | t :: _, [], ht, _, h => absurd h (chain_ne_null (ht t (by simp)) _)
  | [t], [u], _, _, h => congrArg (fun v => [v]) h
  | [t], u :: _ :: _, ht, hu, h => absurd h ((ht t (by simp)).ne_follow (hu u (by simp)))
  | t :: _ :: _, [u], ht, hu, h => absurd h.symm ((hu u (by simp)).ne_follow (ht t (by simp)))
  | t :: t₁ :: ts, u :: u₁ :: us, ht, hu, h => by
    obtain ⟨rfl, hrest⟩ := follow_inj (ht t (by simp)) (hu u (by simp)) h
    rw [chain_inj (fun v hv => ht v (by simp [hv])) (fun v hv => hu v (by simp [hv])) hrest]

/-- A block determines its statements. -/
theorem block_inj : ∀ {ts us : List Tree}, block ts = block us → ts = us
  | [], [], _ => rfl
  | [], [_], h | [], _ :: _ :: _, h | [_], [], h | _ :: _ :: _, [], h
  | [_], _ :: _ :: _, h | _ :: _ :: _, [_], h => by simp [block, node] at h
  | [t], [u], h => by simpa [block, node] using h
  | t :: t₁ :: ts, u :: u₁ :: us, h => by
    simp only [block, node, Value.record.injEq, List.cons.injEq, Prod.mk.injEq, true_and,
      and_true] at h
    rw [h.1, block_inj h.2]

end Tree

/-! ## Tags and leaves -/

/-- The tag of an expression's node. -/
def Expression.tag : Expression → String
  | .number _ => "<number>"
  | .boolean _ => "<boolean>"
  | .name _ => "<identifier>"
  | .negate _ => "negate"
  | .not _ => "not"
  | .binary op _ _ => op.sign
  | .call _ _ => "<function_call>"
  | .function _ _ => "function"

/-- The tag of a statement's node. -/
def Statement.tag : Statement → String
  | .block _ => "block"
  | .branch _ _ _ => "if"
  | .loop _ _ => "while"
  | .giveBack _ => "return"
  | .print _ => "print"
  | .assign _ _ => "="
  | .expression e => e.tag

theorem Expression.field_tag (e : Expression) :
    (e.tree .returns).field "tag" = .ok (.text e.tag) := by
  cases e <;> rfl

theorem Statement.field_tag (s : Statement) :
    (s.tree .returns).field "tag" = .ok (.text s.tag) := by
  match s with
  | .block [] | .block [_] | .block (_ :: _ :: _) => rfl
  | .branch _ _ none | .branch _ _ (some _) => rfl
  | .loop _ _ | .print _ | .assign _ _ => rfl
  | .giveBack none | .giveBack (some _) => rfl
  | .expression e => exact e.field_tag

/-- The kind of an expression, as a number. -/
def Expression.kind : Expression → Nat
  | .number _ => 0
  | .boolean _ => 1
  | .name _ => 2
  | .negate _ => 3
  | .not _ => 4
  | .call _ _ => 5
  | .function _ _ => 6
  | .binary _ _ _ => 7

/-- The kind of a statement, as a number. -/
def Statement.kind : Statement → Nat
  | .block _ => 0
  | .branch _ _ _ => 1
  | .loop _ _ => 2
  | .giveBack _ => 3
  | .print _ => 4
  | .assign _ _ => 5
  | .expression _ => 6

/-- The tag of an expression tells its kind. Every other tag is the sign of an operator. -/
theorem Expression.idxOf_tag (e : Expression) :
    ["<number>", "<boolean>", "<identifier>", "negate", "not", "<function_call>",
      "function"].idxOf e.tag = e.kind := by
  cases e with
  | binary op => cases op <;> rfl
  | number | boolean | name | negate | not | call | function => rfl

/-- The tag of a statement tells its kind. Every other tag is that of an expression. -/
theorem Statement.idxOf_tag (s : Statement) :
    ["block", "if", "while", "return", "print", "="].idxOf s.tag = s.kind := by
  match s with
  | .expression (.binary op _ _) => cases op <;> rfl
  | .expression (.number _) | .expression (.boolean _) | .expression (.name _) => rfl
  | .expression (.negate _) | .expression (.not _) => rfl
  | .expression (.call _ _) | .expression (.function _ _) => rfl
  | .block _ | .branch _ _ _ | .loop _ _ | .giveBack _ | .print _ | .assign _ _ => rfl

theorem Expression.tag_eq {e e' : Expression} (h : e.tree .returns = e'.tree .returns) :
    e.tag = e'.tag :=
  Value.text.inj (Tree.field_inj "tag" h e.field_tag e'.field_tag)

/-- Expressions with one tree are of one kind. -/
theorem Expression.kind_eq {e e' : Expression} (h : e.tree .returns = e'.tree .returns) :
    e.kind = e'.kind := by
  rw [← e.idxOf_tag, ← e'.idxOf_tag, Expression.tag_eq h]

/-- Statements with one tree are of one kind. -/
theorem Statement.kind_eq {s s' : Statement} (h : s.tree .returns = s'.tree .returns) :
    s.kind = s'.kind := by
  have htag : s.tag = s'.tag := Value.text.inj (Tree.field_inj "tag" h s.field_tag s'.field_tag)
  rw [← s.idxOf_tag, ← s'.idxOf_tag, htag]

theorem Numeric.value_injective {a b : Numeric} (h : a.value = b.value) : a = b := by
  cases a <;> cases b <;> simp_all [Numeric.value]

/-- An operator is known by its sign. -/
theorem Operator.sign_injective {op op' : Operator} (h : op.sign = op'.sign) : op = op' := by
  have find : ∀ op : Operator,
      [plus, minus, times, divide, less, greater, lessEqual, greaterEqual, equal, unequal, and,
        or].find? (fun other => other.sign == op.sign) = some op := by
    intro op
    cases op <;> rfl
  have hop := find op
  rw [h, find op'] at hop
  exact (Option.some.inj hop).symm

theorem Identifier.tree_single {st : Stage} (x : Identifier) : (x.tree st).Single := by
  cases st <;> exact ⟨_, rfl, by simp, rfl⟩

/-- The tree of an expression is not in a chain. -/
theorem Expression.tree_single {st : Stage} (e : Expression) : (e.tree st).Single := by
  cases e with
  | name x => exact x.tree_single
  | number | boolean | negate | not | binary | call | function =>
    cases st <;> exact ⟨_, rfl, by simp, rfl⟩

theorem Identifier.tree_injective {x y : Identifier} (h : x.tree .returns = y.tree .returns) :
    x = y := by
  have htext : Value.text x.text = .text y.text := Tree.field_inj "value" h rfl rfl
  exact Identifier.ext_text (Value.text.inj htext)

/-- A list of parameters is known by its tree. -/
theorem Identifier.listTree_injective {xs ys : List Identifier}
    (h : listTree .returns xs = listTree .returns ys) : xs = ys := by
  have single : ∀ zs : List Identifier, ∀ t ∈ zs.map (tree .returns), t.Single := by
    intro zs t ht
    obtain ⟨z, -, rfl⟩ := List.mem_map.1 ht
    exact z.tree_single
  exact (List.map_inj_right fun _ _ => Identifier.tree_injective).1
    (Tree.chain_inj (single xs) (single ys) h)

theorem Expression.trees_eq_map (st : Stage) (es : List Expression) :
    trees st es = es.map (Expression.tree st) := by
  induction es with
  | nil => rfl
  | cons e es ih => simp [trees, ih]

theorem Expression.single_of_mem_trees {t : Tree} {es : List Expression}
    (h : t ∈ trees .returns es) : t.Single := by
  rw [trees_eq_map] at h
  obtain ⟨e, -, rfl⟩ := List.mem_map.1 h
  exact e.tree_single

theorem Expression.chain_trees_inj {es es' : List Expression}
    (h : Tree.chain (trees .returns es) = Tree.chain (trees .returns es')) :
    trees .returns es = trees .returns es' :=
  Tree.chain_inj (fun _ => single_of_mem_trees) (fun _ => single_of_mem_trees) h

/-! ## Expressions and statements -/

mutual

/-- **A tree is the tree of at most one expression.** -/
theorem Expression.tree_injective {e e' : Expression}
    (h : e.tree .returns = e'.tree .returns) : e = e' := by
  -- of the pairs of constructors only those of one kind are left, the same on both sides
  have hkind := Expression.kind_eq h
  cases e with
  | number v =>
    cases e' with
    | number v' => rw [Numeric.value_injective (Tree.field_inj "value" h rfl rfl)]
    | _ => cases hkind
  | boolean b =>
    cases e' with
    | boolean b' =>
      have htext := Tree.field_inj "value" h rfl rfl
      cases b <;> cases b' <;> first | rfl | cases htext
    | _ => cases hkind
  | name x =>
    cases e' with
    | name x' => rw [Identifier.tree_injective h]
    | _ => cases hkind
  | negate a =>
    cases e' with
    | negate a' => rw [Expression.tree_injective (Tree.field_inj "value" h rfl rfl)]
    | _ => cases hkind
  | not a =>
    cases e' with
    | not a' => rw [Expression.tree_injective (Tree.field_inj "value" h rfl rfl)]
    | _ => cases hkind
  | binary op l r =>
    cases e' with
    | binary op' l' r' =>
      have hop : op.sign = op'.sign := Expression.tag_eq h
      have hl := Expression.tree_injective (Tree.field_inj "left" h rfl rfl)
      have hr := Expression.tree_injective (Tree.field_inj "right" h rfl rfl)
      rw [Operator.sign_injective hop, hl, hr]
    | _ => cases hkind
  | call f es =>
    cases e' with
    | call f' es' =>
      have hf := Expression.tree_injective (Tree.field_inj "expression" h rfl rfl)
      have hes := Expression.trees_injective (Expression.chain_trees_inj
        (Tree.field_inj "arguments" h rfl rfl))
      rw [hf, hes]
    | _ => cases hkind
  | function xs ss =>
    cases e' with
    | function xs' ss' =>
      have hxs := Identifier.listTree_injective (Tree.field_inj "parameters" h rfl rfl)
      have hss := Statement.trees_injective (Tree.block_inj (Tree.field_inj "body" h rfl rfl))
      rw [hxs, hss]
    | _ => cases hkind
termination_by structural e

/-- Lists of expressions with the same trees are the same, item by item. -/
theorem Expression.trees_injective {es es' : List Expression}
    (h : Expression.trees .returns es = Expression.trees .returns es') : es = es' := by
  cases es with
  | nil =>
    cases es' with
    | nil => rfl
    | cons => cases h
  | cons e es =>
    cases es' with
    | nil => cases h
    | cons e' es' =>
      obtain ⟨he, hes⟩ := List.cons.inj h
      rw [Expression.tree_injective he, Expression.trees_injective hes]
termination_by structural es

/-- **A tree is the tree of at most one statement.** -/
theorem Statement.tree_injective {s s' : Statement}
    (h : s.tree .returns = s'.tree .returns) : s = s' := by
  have hkind := Statement.kind_eq h
  -- one tree has one tag, so that the other statement is of the same kind; its parts are fields
  cases s with
  | block ss =>
    cases s' with
    | block ss' => rw [Statement.trees_injective (Tree.block_inj h)]
    | _ => cases hkind
  | branch c s a =>
    cases s' with
    | branch c' s' a' =>
      cases a with
      | none =>
        cases a' with
        | none =>
          rw [Expression.tree_injective (Tree.field_inj "condition" h rfl rfl),
            Statement.tree_injective (Tree.field_inj "then" h rfl rfl)]
        -- a branch with an alternative has a field that one without it lacks
        | some a' => cases congrArg (Value.field "else") h
      | some a =>
        cases a' with
        | none => cases congrArg (Value.field "else") h
        | some a' =>
          rw [Expression.tree_injective (Tree.field_inj "condition" h rfl rfl),
            Statement.tree_injective (Tree.field_inj "then" h rfl rfl),
            Statement.tree_injective (Tree.field_inj "else" h rfl rfl)]
    | _ => cases hkind
  | loop c s =>
    cases s' with
    | loop c' s' =>
      rw [Expression.tree_injective (Tree.field_inj "condition" h rfl rfl),
        Statement.tree_injective (Tree.field_inj "do" h rfl rfl)]
    | _ => cases hkind
  | giveBack v =>
    cases s' with
    | giveBack v' =>
      cases v with
      | none =>
        cases v' with
        | none => rfl
        | some e' => cases congrArg (Value.field "value") h
      | some e =>
        cases v' with
        | none => cases congrArg (Value.field "value") h
        | some e' => rw [Expression.tree_injective (Tree.field_inj "value" h rfl rfl)]
    | _ => cases hkind
  | print es =>
    cases s' with
    | print es' =>
      rw [Expression.trees_injective (Expression.chain_trees_inj
        (Tree.field_inj "arguments" h rfl rfl))]
    | _ => cases hkind
  | assign x e =>
    cases s' with
    | assign x' e' =>
      rw [Identifier.tree_injective (Tree.field_inj "target" h rfl rfl),
        Expression.tree_injective (Tree.field_inj "value" h rfl rfl)]
    | _ => cases hkind
  | expression e =>
    cases s' with
    | expression e' => rw [Expression.tree_injective h]
    | _ => cases hkind
termination_by structural s

/-- Lists of statements with the same trees are the same, item by item. -/
theorem Statement.trees_injective {ss ss' : List Statement}
    (h : Statement.trees .returns ss = Statement.trees .returns ss') : ss = ss' := by
  cases ss with
  | nil =>
    cases ss' with
    | nil => rfl
    | cons => cases h
  | cons s ss =>
    cases ss' with
    | nil => cases h
    | cons s' ss' =>
      obtain ⟨hs, hss⟩ := List.cons.inj h
      rw [Statement.tree_injective hs, Statement.trees_injective hss]
termination_by structural ss

end

end Stepwise
