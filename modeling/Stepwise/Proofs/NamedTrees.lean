import Stepwise.Proofs.Discipline

/-!
# Named trees

A name node of the parser holds a name that programs can write; so it is in the functions that
a program makes, which are trees of the parser as well. A value is named if all name nodes
inside of it are of this kind.

- `Value.named`: every name node inside the value holds a name;
- `Fields.named_of_get?`, `Node.functionParts_named`: what is taken out of a named value is named;
- `Statement.tree_named`: so is every tree of the parser, from `blocks` on.
-/

namespace Stepwise

/-! ## Values -/

/-- The value is a text that programs can write as a name. -/
def Value.isName : Value → Bool
  | .text s => Lexeme.isName s.toList
  | _ => false

/-- If these are the fields of a name node, it holds a name. -/
def Fields.properlyNamed (fields : Fields) : Bool :=
  (Fields.get? "tag" fields).all (fun tag => !tag.isText "<identifier>") ||
    (Fields.get? "value" fields).all Value.isName

mutual

/-- Every name node inside the value holds a name. -/
def Value.named : Value → Bool
  | .record fields => Fields.properlyNamed fields && Fields.allNamed fields
  | .null | .bool _ | .int _ | .float _ | .text _ | .list _ => true

/-- So it is in all of the fields. -/
def Fields.allNamed : Fields → Bool
  | [] => true
  | (_, v) :: rest => Value.named v && Fields.allNamed rest

end

namespace Fields

/-- A field of a named record is named. -/
theorem named_of_get? {name : String} {v : Value} : ∀ {fields : Fields}, allNamed fields = true →
    get? name fields = some v → v.named = true
  | (key, w) :: rest, h, hget => by
    simp only [allNamed, Bool.and_eq_true] at h
    by_cases hkey : key = name
    · simp only [get?, hkey, if_true, Option.some.injEq] at hget
      rw [← hget]
      exact h.1
    · simp only [get?, hkey, if_false] at hget
      exact named_of_get? h.2 hget

/-- Binding a name to a named value keeps the fields named. -/
theorem allNamed_set {name : String} {v : Value} (hv : v.named = true) :
    ∀ {fields : Fields}, allNamed fields = true → allNamed (set name v fields) = true
  | [], _ => by simp [set, allNamed, hv]
  | (key, w) :: rest, h => by
    simp only [allNamed, Bool.and_eq_true] at h
    by_cases hkey : key = name
    · simp [set, hkey, allNamed, hv, h.2]
    · simp [set, hkey, allNamed, h.1, allNamed_set hv h.2]

end Fields

namespace Value

variable {node : Value} (h : node.named = true)

include h

/-- A name node holds a name. -/
theorem name_of_named (htag : node.field "tag" = .ok (.text "<identifier>")) :
    Yields (fun v => ∃ x : Identifier, v = .text x.text) (node.field "value") := by
  cases node with
  | record fields =>
    simp only [named, Bool.and_eq_true] at h
    intro v hv
    have hname : v.isName = true := by
      simpa [Fields.properlyNamed, get?_of_field htag, get?_of_field hv, isText] using h.1
    cases v with
    | text s => exact ⟨⟨s, hname⟩, rfl⟩
    | null | bool | int | float | list | record => cases hname
  | null | bool | int | float | text | list => cases htag

end Value

namespace Node

/-- The body of a named function is named. -/
theorem functionParts_named {f : Value} (h : f.named = true) :
    Yields (fun parts => Value.named parts.2 = true) (functionParts f) := by
  refine .bind fun tag _ => .ite (fun _ => .bind fun _ h => by cases h) fun _ => ?_
  cases f with
  | record fields =>
    simp only [Value.named, Bool.and_eq_true] at h
    dsimp only
    split
    · exact .pure (Fields.named_of_get? h.2 ‹_›)
    · exact .error _
  | null | bool | int | float | text | list => exact .error _

end Node

/-! ## Trees of syntax -/

namespace Tree

/-- A node of another kind is named if its parts are. -/
theorem node_named {tag : String} {parts : Fields} (htag : tag ≠ "<identifier>")
    (hparts : Fields.allNamed parts = true) : Value.named (node tag parts) = true := by
  simp [node, Value.named, Fields.properlyNamed, Fields.allNamed, Fields.get?, Value.isText, htag,
    hparts]

/-- The field for the next tree of a chain is no part of a name. -/
theorem follow_named {t next : Tree} (ht : Value.named t = true) (hnext : Value.named next = true) :
    Value.named (follow next t) = true := by
  cases t with
  | record fields =>
    simp only [Value.named, Bool.and_eq_true] at ht
    have hkept : Fields.properlyNamed (Fields.set "next" next fields) = true := by
      rw [Fields.properlyNamed, Fields.get?_set_of_ne next (by decide),
        Fields.get?_set_of_ne next (by decide)]
      exact ht.1
    simp only [follow, Value.named, hkept, Fields.allNamed_set hnext ht.2, Bool.and_self]
  | null | bool | int | float | text | list => rfl

theorem chain_named : ∀ {ts : List Tree}, (∀ t ∈ ts, Value.named t = true) →
    Value.named (chain ts) = true
  | [], _ => rfl
  | [t], h => h t (List.mem_singleton_self t)
  | t :: _ :: _, h =>
    follow_named (h t List.mem_cons_self)
      (chain_named fun v hv => h v (List.mem_cons_of_mem t hv))

/-- A block is named if its statements are. -/
theorem block_named : ∀ {ts : List Tree}, (∀ t ∈ ts, Value.named t = true) →
    Value.named (block ts) = true
  | [], _ => by decide
  | [t], h => by
    have ht := h t (List.mem_singleton_self t)
    exact node_named (by decide) (by simp [Fields.allNamed, ht])
  | t :: _ :: _, h => by
    have ht := h t List.mem_cons_self
    have hrest := block_named fun v hv => h v (List.mem_cons_of_mem t hv)
    exact node_named (by decide) (by simp [Fields.allNamed, ht, hrest])

end Tree

section Syntax

open Tree (node_named chain_named block_named)

variable {st : Stage}

theorem Stage.nameTag_of_blocks (hst : st.has .blocks = true) : st.nameTag = "<identifier>" := by
  cases st <;> first | rfl | cases hst

theorem Operator.sign_ne_nameTag (op : Operator) : op.sign ≠ "<identifier>" := by
  cases op <;> decide

/-- The node of an identifier holds a name. -/
theorem Identifier.tree_named (hst : st.has .blocks = true) (x : Identifier) :
    Value.named (x.tree st) = true := by
  have hx : (Value.text x.text).isName = true := x.spelled
  simp [Identifier.tree, Tree.leaf, hst, Stage.nameTag_of_blocks hst, Tree.node, Value.named,
    Fields.properlyNamed, Fields.allNamed, Fields.get?, Value.isText, hx]

theorem Identifier.listTree_named (hst : st.has .blocks = true) (xs : List Identifier) :
    Value.named (Identifier.listTree st xs) = true := by
  refine chain_named fun t ht => ?_
  obtain ⟨x, -, rfl⟩ := List.mem_map.1 ht
  exact x.tree_named hst

mutual

/-- **Every tree of an expression is named.** Only the node of an identifier has the tag of
names. -/
theorem Expression.tree_named (hst : st.has .blocks = true) :
    ∀ e : Expression, Value.named (e.tree st) = true
  | .number v => by
    have htag : st.numberTag ≠ "<identifier>" := by cases st <;> decide
    simp only [Expression.tree, Tree.leaf, hst, if_true]
    cases v <;> exact node_named htag rfl
  | .boolean b => by
    have htag : st.booleanTag ≠ "<identifier>" := by cases st <;> decide
    simp only [Expression.tree, Tree.leaf, hst, if_true]
    exact node_named htag rfl
  | .name x => x.tree_named hst
  | .negate e | .not e => by
    simp only [Expression.tree, Tree.unary, hst, if_true]
    exact node_named (by decide) (by simp [Fields.allNamed, e.tree_named hst])
  | .binary op l r => by
    simp only [Expression.tree, Tree.binary, hst, if_true]
    exact node_named op.sign_ne_nameTag
      (by simp [Fields.allNamed, l.tree_named hst, r.tree_named hst])
  | .call f es => by
    have hes := chain_named (Expression.trees_named hst es)
    exact node_named (by decide) (by simp [Fields.allNamed, f.tree_named hst, hes])
  | .function xs ss => by
    have hxs := Identifier.listTree_named hst xs
    have hss := block_named (Statement.trees_named hst ss)
    exact node_named (by decide) (by simp [Fields.allNamed, hxs, hss])
termination_by structural e => e

theorem Expression.trees_named (hst : st.has .blocks = true) :
    ∀ es : List Expression, ∀ t ∈ Expression.trees st es, Value.named t = true
  | [] => by simp [Expression.trees]
  | e :: es => by
    simp only [Expression.trees, List.forall_mem_cons]
    exact ⟨e.tree_named hst, Expression.trees_named hst es⟩
termination_by structural es => es

/-- **Every tree of a statement is named.** -/
theorem Statement.tree_named (hst : st.has .blocks = true) :
    ∀ s : Statement, Value.named (s.tree st) = true
  | .block ss => block_named (Statement.trees_named hst ss)
  | .branch c s none => by
    simp only [Statement.tree, Tree.branch, hst, if_true]
    exact node_named (by decide) (by simp [Fields.allNamed, c.tree_named hst, s.tree_named hst])
  | .branch c s (some a) => by
    simp only [Statement.tree, Tree.branch, hst, if_true]
    exact node_named (by decide)
      (by simp [Fields.allNamed, c.tree_named hst, s.tree_named hst, a.tree_named hst])
  | .loop c s => node_named (by decide)
      (by simp [Fields.allNamed, c.tree_named hst, s.tree_named hst])
  | .giveBack none => node_named (by decide) rfl
  | .giveBack (some e) => node_named (by decide) (by simp [Fields.allNamed, e.tree_named hst])
  | .print es => by
    have hes := chain_named (Expression.trees_named hst es)
    exact node_named (by decide) (by simp [Fields.allNamed, hes])
  | .assign x e => by
    simp only [Statement.tree, Tree.assign, hst, if_true]
    exact node_named (by decide) (by simp [Fields.allNamed, x.tree_named hst, e.tree_named hst])
  | .expression e => e.tree_named hst
termination_by structural s => s

theorem Statement.trees_named (hst : st.has .blocks = true) :
    ∀ ss : List Statement, ∀ t ∈ Statement.trees st ss, Value.named t = true
  | [] => by simp [Statement.trees]
  | s :: ss => by
    simp only [Statement.trees, List.forall_mem_cons]
    exact ⟨s.tree_named hst, Statement.trees_named hst ss⟩
termination_by structural ss => ss

end

end Syntax

end Stepwise
