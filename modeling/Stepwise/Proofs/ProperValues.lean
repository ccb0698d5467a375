import Stepwise.Proofs.Upkeep

/-!
# Proper values

A record keeps its fields in a list, and a list could hold a field twice. No record
that a program meets does: in a proper value each field of a record stands once,
at every depth. Programs are proper, and running them keeps it so.

- `Value.proper`: no record inside the value has a field twice;
- `Fields.proper_set`, `Operator.apply_proper`, `Statement.tree_proper`: binding,
  operators and the parser make proper values;
- `Program.run_proper`: so do programs.
-/

namespace Stepwise

namespace Value

mutual

/-- No record inside the value has a field twice. -/
def proper : Value → Bool
  | .list items => properItems items
  | .record fields => properFields fields
  | .null | .bool _ | .int _ | .float _ | .text _ => true

/-- All items are proper. -/
def properItems : List Value → Bool
  | [] => true
  | v :: rest => proper v && properItems rest

/-- All fields are proper, and none has the name of a later one. -/
def properFields : Fields → Bool
  | [] => true
  | (name, v) :: rest => (Fields.get? name rest).isNone && proper v && properFields rest

end

theorem properItems_iff {items : List Value} :
    properItems items = true ↔ ∀ v ∈ items, v.proper = true := by
  induction items with
  | nil => simp [properItems]
  | cons v rest ih => simp [properItems, ih]

end Value

open Value (proper properFields properItems)

namespace Fields

theorem properFields_cons {name : Key} {v : Value} {rest : Fields} :
    properFields ((name, v) :: rest) = true ↔
      get? name rest = none ∧ v.proper = true ∧ properFields rest = true := by
  simp [properFields, and_assoc]

/-- A field of a proper record is proper. -/
theorem proper_of_get? {name : Key} {v : Value} : ∀ {fields : Fields},
    properFields fields = true → get? name fields = some v → v.proper = true
  | (key, w) :: rest, h, hget => by
    obtain ⟨-, hw, hrest⟩ := properFields_cons.1 h
    by_cases hkey : key = name
    · simp only [get?, hkey, if_true, Option.some.injEq] at hget
      rwa [← hget]
    · simp only [get?, hkey, if_false] at hget
      exact proper_of_get? hrest hget

/-- Binding a name replaces its field or appends one, and so no field stands twice. -/
theorem proper_set {name : Key} {v : Value} (hv : v.proper = true) : ∀ {fields : Fields},
    properFields fields = true → properFields (set name v fields) = true
  | [], _ => by simp [set, properFields, get?, hv]
  | (key, w) :: rest, h => by
    obtain ⟨hkey, hw, hrest⟩ := properFields_cons.1 h
    by_cases hname : key = name
    · simp only [set, hname, if_true]
      exact properFields_cons.2 ⟨hname ▸ hkey, hv, hrest⟩
    · simp only [set, hname, if_false]
      -- the first name is not the one that is set, so it stays absent from the rest
      refine properFields_cons.2 ⟨?_, hw, proper_set hv hrest⟩
      rwa [get?_set_of_ne v hname]

end Fields

/-! ## Operators -/

/-- **Operators make proper values** of proper ones. -/
theorem Operator.apply_proper (op : Operator) {a b : Value} (ha : a.proper = true)
    (hb : b.proper = true) : Yields (fun v => v.proper = true) (op.apply a b) := by
  intro v hv
  have hderived := op.apply_derived a b v hv
  cases v with
  | int | float | text => rfl
  | list items =>
    refine Value.properItems_iff.2 fun item hitem => ?_
    -- operators make no records, and lists only of the items of their operands
    obtain ⟨operand, rfl | rfl, hmem⟩ := hderived item hitem
    · exact Value.properItems_iff.1 ha item hmem
    · exact Value.properItems_iff.1 hb item hmem
  | null | bool | record => exact hderived.elim

/-! ## Trees -/

namespace Tree

/-- The field for the next tree of a chain is set, not added. -/
theorem follow_proper {t next : Tree} (ht : proper t = true) (hnext : proper next = true) :
    proper (follow next t) = true := by
  cases t with
  | record fields => exact Fields.proper_set hnext ht
  | null | bool | int | float | text | list => exact ht

theorem chain_proper : ∀ {ts : List Tree}, (∀ t ∈ ts, proper t = true) → proper (chain ts) = true
  | [], _ => rfl
  | [t], h => h t (List.mem_singleton_self t)
  | t :: _ :: _, h =>
    follow_proper (h t List.mem_cons_self)
      (chain_proper fun u hu => h u (List.mem_cons_of_mem t hu))

/-- A block is proper if its statements are: each node holds one of them and the rest. -/
theorem block_proper : ∀ {ts : List Tree}, (∀ t ∈ ts, proper t = true) → proper (block ts) = true
  | [], _ => by decide
  | [t], h => by
    have ht := h t (List.mem_singleton_self t)
    simp [block, node, proper, properFields, Fields.get?, ht]
  | t :: _ :: _, h => by
    have ht := h t List.mem_cons_self
    have hrest := block_proper fun u hu => h u (List.mem_cons_of_mem t hu)
    simp [block, node, proper, properFields, Fields.get?, ht, hrest]

variable {st : Stage}

theorem leaf_proper (tag : String) {v : Value} (hv : v.proper = true) :
    proper (leaf st tag v) = true := by
  unfold leaf
  split <;> simp [uniform, node, proper, properFields, Fields.get?, hv]

end Tree

section Syntax

open Tree (chain_proper block_proper leaf_proper)

variable {st : Stage}

theorem Identifier.tree_proper (x : Identifier) : proper (x.tree st) = true :=
  leaf_proper _ rfl

theorem Identifier.listTree_proper (xs : List Identifier) :
    proper (Identifier.listTree st xs) = true := by
  refine chain_proper fun t ht => ?_
  obtain ⟨x, -, rfl⟩ := List.mem_map.1 ht
  exact x.tree_proper

mutual

/-- **Every tree of an expression is proper.** The names of the parts of a node are fixed and
differ, which is what `simp` checks. -/
theorem Expression.tree_proper : ∀ e : Expression, proper (e.tree st) = true
  | .number v => leaf_proper _ (by cases v <;> rfl)
  | .boolean b => leaf_proper _ rfl
  | .name x => x.tree_proper
  | .negate e | .not e => by
    unfold Expression.tree Tree.unary
    split <;> simp [Tree.uniform, Tree.node, proper, properFields, Fields.get?, e.tree_proper]
  | .binary op l r => by
    unfold Expression.tree Tree.binary
    split <;> simp [Tree.uniform, Tree.node, proper, properFields, Fields.get?, l.tree_proper,
      r.tree_proper]
  | .call f es => by
    have hes := chain_proper (Expression.trees_proper es)
    unfold Expression.tree Tree.call
    split <;> simp [Tree.node, proper, properFields, Fields.get?, f.tree_proper, hes]
  | .function xs ss => by
    have hxs : proper (Identifier.listTree st xs) = true := Identifier.listTree_proper xs
    have hss := block_proper (Statement.trees_proper ss)
    simp [Expression.tree, Tree.function, Tree.node, proper, properFields, Fields.get?, hxs, hss]
termination_by structural e => e

theorem Expression.trees_proper : ∀ es : List Expression,
    ∀ t ∈ Expression.trees st es, proper t = true
  | [] => by simp [Expression.trees]
  | e :: es => by
    simp only [Expression.trees, List.forall_mem_cons]
    exact ⟨e.tree_proper, Expression.trees_proper es⟩
termination_by structural es => es

/-- **Every tree of a statement is proper.** -/
theorem Statement.tree_proper : ∀ s : Statement, proper (s.tree st) = true
  | .block ss => block_proper (Statement.trees_proper ss)
  | .branch c s none => by
    unfold Statement.tree Tree.branch
    split <;> simp [Tree.node, proper, properFields, Fields.get?, c.tree_proper, s.tree_proper]
  | .branch c s (some a) => by
    unfold Statement.tree Tree.branch
    split <;> simp [Tree.node, proper, properFields, Fields.get?, c.tree_proper, s.tree_proper,
      a.tree_proper]
  | .loop c s => by
    unfold Statement.tree Tree.loop
    split <;> simp [Tree.node, proper, properFields, Fields.get?, c.tree_proper, s.tree_proper]
  | .giveBack none => rfl
  | .giveBack (some e) => by
    simp [Statement.tree, Tree.giveBack, Tree.node, proper, properFields, Fields.get?,
      e.tree_proper]
  | .print es => by
    have hes := chain_proper (Expression.trees_proper es)
    simp [Statement.tree, Tree.output, Tree.node, proper, properFields, Fields.get?, hes]
  | .assign x e => by
    unfold Statement.tree Tree.assign
    split <;> simp [Tree.uniform, Tree.node, proper, properFields, Fields.get?, x.tree_proper,
      e.tree_proper]
  | .expression e => e.tree_proper
termination_by structural s => s

theorem Statement.trees_proper : ∀ ss : List Statement,
    ∀ t ∈ Statement.trees st ss, proper t = true
  | [] => by simp [Statement.trees]
  | s :: ss => by
    simp only [Statement.trees, List.forall_mem_cons]
    exact ⟨s.tree_proper, Statement.trees_proper ss⟩
termination_by structural ss => ss

end

end Syntax

/-! ## Looking up -/

namespace Name

/-- What is found in a proper environment is proper. -/
theorem find_proper (name : String) {env : Value} (henv : env.proper = true) :
    Yields (fun v => v.proper = true) (find name env) := by
  refine .bind fun _ _ => .ite (fun _ v hv => ?_) fun _ => .error _
  cases env with
  | record fields => exact Fields.proper_of_get? henv (Value.get?_of_field hv)
  | null | bool | int | float | text | list => cases hv

mutual

/-- What a name stands for is proper: every frame is a field of the one inside it. -/
theorem resolve_proper (name : String) : ∀ env : Value, env.proper = true →
    Yields (fun v => v.proper = true) (resolve name env)
  | .record fields, henv => by
    rw [resolve]
    split
    · exact .pure (Fields.proper_of_get? henv ‹_›)
    · exact resolveParent_proper name fields henv
  | .null, _ | .bool _, _ | .int _, _ | .float _, _ | .text _, _ | .list _, _ => by
    rw [resolve]
    · refine .ite (fun _ => .error _) fun _ => .bind fun _ _ => ?_
      exact .ite (fun _ => .error _) fun _ => .error _
    · simp

theorem resolveParent_proper (name : String) : ∀ fields : Fields, properFields fields = true →
    Yields (fun v => v.proper = true) (resolveParent name fields)
  | [], _ => .error _
  | (key, v) :: rest, h => by
    obtain ⟨-, hv, hrest⟩ := Fields.properFields_cons.1 h
    rw [resolveParent]
    split
    · exact resolve_proper name v hv
    · exact resolveParent_proper name rest hrest

end

end Name

/-! ## Evaluation -/

/-- The same machine, in a proper environment. -/
def Machine.Proper (m m' : Machine) : Prop :=
  m' = m ∧ m.environment.proper = true

/-- The body of a proper function is proper. -/
theorem Node.functionParts_proper {f : Value} (hf : f.proper = true) :
    Yields (fun parts => proper parts.2 = true) (Node.functionParts f) := by
  refine .bind fun tag _ => .ite (fun _ => .bind fun _ h => by cases h) fun _ => ?_
  cases f with
  | record fields =>
    dsimp only
    split
    · exact .pure (Fields.proper_of_get? hf ‹_›)
    · exact .error _
  | null | bool | int | float | text | list => exact .error _

/-- **Evaluation keeps the machine proper**, at every stage: what `Upkeep` asks of the parts. -/
theorem Machine.Proper.upkeep (st : Stage) : Upkeep st Machine.Proper (fun t => proper t = true)
    (fun v => v.proper = true) (fun fields => properFields fields = true) where
  part ht hget := Fields.proper_of_get? ht hget
  missing := rfl
  null := rfl
  int _ := rfl
  float _ := rfl
  operator op _ _ ha hb := op.apply_proper ha hb
  literal ht := ht
  body _ hf := Node.functionParts_proper hf
  empty := rfl
  bind _ hfields hv := Fields.proper_set hv hfields
  print s hm := ⟨by rw [hm.1], hm.2⟩
  lookup _ _ := Node.lookup_preserves st _ (fun _ _ hm => by rw [hm.1])
    (fun name _ _ hm => Name.find_proper name hm.2)
    fun name _ _ hm => Name.resolve_proper name _ hm.2
  -- only a record can be assigned to, and there the field is set
  assign _ _ _ hv := Action.assign_preserves _ _ (fun _ _ hm => by rw [hm.1])
    fun _ _ fields _ hm henv => by
      have hfields : (Value.record fields).proper = true := henv ▸ hm.2
      exact ⟨by rw [hm.1], Fields.proper_set hv hfields⟩
  enter hfields hm := ⟨by rw [hm.1], Fields.proper_set hm.2 hfields⟩
  leave hm hinner := ⟨by rw [hm.1, hinner.1], hm.2⟩

/-- **Running a program makes no improper value**, neither as its result nor in the environment. -/
theorem Program.run_proper {st : Stage} {code : String} {env : Value} (henv : env.proper = true)
    {r : Except Fault Completion} {m : Machine} (hrun : (Program.run st code).run env = (r, m)) :
    m.environment.proper = true ∧ Yields (Completion.Carries fun v => v.proper = true) r := by
  have hkeeps : Action.Preserves Machine.Proper (Completion.Carries fun v => v.proper = true)
      (Program.run st code) := by
    refine .liftBind fun t ht => (Machine.Proper.upkeep st).evaluate _ .statement t ?_
    obtain ⟨s, rfl⟩ := Program.tree_image ht
    exact s.tree_proper
  obtain ⟨-, hproper, hresult⟩ := hkeeps ⟨env, ""⟩ ⟨env, ""⟩ ⟨rfl, henv⟩
  rw [show Program.run st code ⟨env, ""⟩ = (r, m) from hrun] at hproper hresult
  exact ⟨hproper.2, hresult⟩

end Stepwise
