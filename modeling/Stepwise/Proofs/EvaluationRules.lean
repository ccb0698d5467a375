import Stepwise.Proofs.Chains
import Stepwise.Proofs.Formulas
import Stepwise.Proofs.Placement
import Stepwise.Proofs.Sequencing

/-!
# Rules for computing with programs

What a program comes to follows from what its parts come to, with a rule for each kind of syntax.
The rules hold at every stage that has the syntax, and no budget occurs in them.

- `Program.reaches_within`: a text comes to what its tree comes to;
- `ends_number`, `ends_name`, `ends_integers`: expressions over integers, such as those of one name
  and one number (`ends_name_number`);
- `ends_assign`, `ends_block_of_ok`, `ends_block_then`, `ends_branch_then`, `ends_branch_else`:
  assignments, blocks and branches;
- `ends_loop_done`, `ends_loop_round`: a loop at one look at its condition. From these, loops with
  an invariant that counts the rounds which are left: they end (`ends_loop_of_rounds`).
-/

namespace Stepwise

open Action (Growing Reaches)
open Outcomes (passedOn)

variable {st : Stage} {mode : Mode} {m m₁ m₂ m' : Machine}

/-- A program text runs as its tree does. -/
theorem Program.reaches_within {code : String} {t : Tree} (h : Program.tree st code = .ok t)
    {r : Except Fault Completion} :
    Reaches (fun n => Program.within st n code) m r m' ↔ Ends st .statement t m r m' := by
  have hwithin : (fun n => Program.within st n code) = fun n => evaluate st n .statement t := by
    funext n
    rw [Program.within, h]
    rfl
  rw [hwithin]
  exact Iff.rfl

/-! ## Expressions -/

theorem ends_number (v : Numeric) :
    Ends st mode ((Expression.number v).tree st) m (.ok (.normal v.value)) m := by
  rw [Ends.eq_reaches fun n => evaluate_number n mode v]
  exact Reaches.pure_iff.2 ⟨rfl, rfl⟩

/-- A name that the innermost frame binds is found there at every stage. -/
theorem Name.seek_of_get? {name : String} {fields : Fields} {v : Value}
    (h : Fields.get? name fields = some v) : Name.seek st name (.record fields) = .ok v := by
  unfold Name.seek
  split
  · rw [Name.resolve_record, h, Option.elim_some]
  · simp only [Name.find, Name.isIn, Value.field, h]
    rfl

/-- A name ends with what it stands for. -/
theorem ends_name (hst : st.has .assignments = true) {x : Identifier} {v : Value}
    (h : Name.seek st x.text m.environment = .ok v) :
    Ends st mode ((Expression.name x).tree st) m (.ok (.normal v)) m := by
  rw [Ends.eq_reaches fun n => evaluate_name n mode hst x]
  refine Reaches.const_iff.2 ⟨by simp, ?_⟩
  rw [Action.environment_bind, h]
  rfl

section Operators

variable {l r : Expression} {c d : Completion}

/-- An operator ends with its value for those of its operands. -/
theorem ends_binary (hst : st.has .booleans = true) {op : Operator} {v : Value}
    (hl : Ends st .statement (l.tree st) m (.ok c) m₁)
    (hr : Ends st .statement (r.tree st) m₁ (.ok d) m₂) (hv : op.apply c.value d.value = .ok v) :
    Ends st mode ((Expression.binary op l r).tree st) m (.ok (.normal v)) m₂ := by
  have hvalue : ∀ {t : Tree} {m m' : Machine} {c : Completion},
      Ends st .statement t m (.ok c) m' → Reaches (fun n => valueAt st n t) m (.ok c.value) m' :=
    fun h => Reaches.map_iff.2 ⟨_, h, rfl⟩
  have hgrowing : ∀ t, Growing fun n => valueAt st n t :=
    fun t => .bind (evaluate_growing st .statement t) fun _ => .const _
  have happly : ∀ a b : Value, Growing fun _ : Nat =>
      (do return .normal (← op.apply a b) : Action Completion) := fun _ _ => .const _
  rw [Ends.eq_reaches fun n => evaluate_binary n mode hst op l r]
  refine (Reaches.bind_iff (hgrowing _) fun a => .bind (hgrowing _) (happly a)).2
    (.inl ⟨_, _, hvalue hl, ?_⟩)
  refine (Reaches.bind_iff (hgrowing _) (happly c.value)).2 (.inl ⟨_, _, hvalue hr, ?_⟩)
  rw [hv]
  exact Reaches.pure_iff.2 ⟨rfl, rfl⟩

/-- An operator computes with the integers that its operands come to. -/
theorem ends_integers (hst : st.has .booleans = true) {op : Operator} (whole : op ≠ .divide)
    {a b : Int} (hl : Ends st .statement (l.tree st) m (.ok c) m₁) (hc : c.value = .int a)
    (hr : Ends st .statement (r.tree st) m₁ (.ok d) m₂) (hd : d.value = .int b) :
    Ends st mode ((Expression.binary op l r).tree st) m
      (.ok (.normal (.int (op.onIntegers whole a b)))) m₂ :=
  ends_binary hst hl hr (by rw [hc, hd, op.apply_int whole])

/-- An operator between a name, which stands for an integer, and a number. -/
theorem ends_name_number (hst : st.has .booleans = true) {op : Operator} (whole : op ≠ .divide)
    {x : Identifier} {a : Int} (b : Int)
    (h : Name.seek st x.text m.environment = .ok (.int a)) :
    Ends st mode ((Expression.binary op (.name x) (.number (.int b))).tree st) m
      (.ok (.normal (.int (op.onIntegers whole a b)))) m :=
  ends_integers hst whole (ends_name (Stage.has_of_rank_le hst (by decide)) h) rfl
    (ends_number (.int b)) rfl

end Operators

/-! ## Assignments and blocks -/

/-- An assignment ends with the name bound. -/
theorem ends_assign (hst : st.has .assignments = true) {x : Identifier} {e : Expression}
    {c : Completion} {fields : Fields} {out : String}
    (h : Ends st .expression (e.tree st) m (.ok c) ⟨.record fields, out⟩) :
    Ends st .statement ((Statement.assign x e).tree st) m (.ok (.normal .null))
      ⟨.record (Fields.set x.text c.value fields), out⟩ := by
  have hassign : ∀ c : Completion, Growing fun _ : Nat =>
      (do Action.assign (.text x.text) c.value; return .normal .null : Action Completion) :=
    fun _ => .const _
  rw [Ends.eq_reaches fun n => evaluate_assign n hst x e]
  refine (Reaches.bind_of_ok h (evaluate_growing _ _ _) (hassign c)).2 ?_
  exact Reaches.const_iff.2 ⟨by simp, rfl⟩

section Blocks

variable (hst : st.has .blocks = true) {c d : Completion} {s : Statement}
include hst

/-- A block of one statement passes its completion on. -/
theorem ends_block_of_ok (h : Ends st .statement (s.tree st) m (.ok c) m') :
    Ends st .statement ((Statement.block [s]).tree st) m (.ok (Returning.passOn c)) m' := by
  have hblock : Ends st .statement (Tree.block [s.tree st]) m (.ok (Returning.passOn c)) m' := by
    rw [ends_block_one hst]
    exact ⟨.ok c, h, rfl⟩
  exact hblock

/-- Behind a statement that does not return come the others. -/
theorem ends_block_then {s' : Statement} {ss : List Statement}
    (h : Ends st .statement (s.tree st) m (.ok c) m₁) (hc : c.returning = false)
    {r : Except Fault Completion}
    (hrest : Ends st .statement ((Statement.block (s' :: ss)).tree st) m₁ r m') :
    Ends st .statement ((Statement.block (s :: s' :: ss)).tree st) m r m' := by
  have hblock : Ends st .statement
      (Tree.block (s.tree st :: Statement.trees st (s' :: ss))) m r m' := by
    rw [ends_block_cons hst _ (by simp [Statement.trees])]
    exact .inr ⟨c, m₁, h, hc, hrest⟩
  exact hblock

end Blocks

/-! ## Branches -/

section Branches

variable (hst : st.has .blocks = true) {e : Expression} {s a : Statement} {v d : Completion}
include hst

/-- What comes behind the condition of an `if` with an `else`. -/
theorem ends_branch_of_condition (hc : Ends st .expression (e.tree st) m (.ok v) m₁)
    {r : Except Fault Completion} :
    Ends st .statement ((Statement.branch e s (some a)).tree st) m r m' ↔
      passedOn (Ends st .statement (if v.value.truthy then s.tree st else a.tree st)) m₁ r m' := by
  have hpart : ∀ t, Growing fun n => (do return Returning.passOn (← evaluate st n .statement t)) :=
    fun t => .bind (evaluate_growing _ _ _) fun _ => .const _
  rw [Statement.tree,
    Ends.eq_reaches fun n => evaluate_branch_some n hst _ _ _ (a.tree_truthy st)]
  refine (Reaches.bind_of_ok hc (evaluate_growing _ _ _) (.ite (hpart _) (hpart _))).trans ?_
  cases v.value.truthy
  · exact Reaches.map_iff
  · exact Reaches.map_iff

theorem ends_branch_then (hc : Ends st .expression (e.tree st) m (.ok v) m₁)
    (hv : v.value.truthy = true) (hs : Ends st .statement (s.tree st) m₁ (.ok d) m') :
    Ends st .statement ((Statement.branch e s (some a)).tree st) m (.ok (Returning.passOn d))
      m' := by
  rw [ends_branch_of_condition hst hc, if_pos hv]
  exact ⟨.ok d, hs, rfl⟩

theorem ends_branch_else (hc : Ends st .expression (e.tree st) m (.ok v) m₁)
    (hv : v.value.truthy = false) (ha : Ends st .statement (a.tree st) m₁ (.ok d) m') :
    Ends st .statement ((Statement.branch e s (some a)).tree st) m (.ok (Returning.passOn d))
      m' := by
  rw [ends_branch_of_condition hst hc, if_neg (by simp [hv])]
  exact ⟨.ok d, ha, rfl⟩

end Branches

/-- A `return` completes with the value of its expression, and returns. -/
theorem ends_giveBack {e : Expression} {c : Completion}
    (h : Ends .returns .statement (e.tree .returns) m (.ok c) m') :
    Ends .returns .statement ((Statement.giveBack (some e)).tree .returns) m
      (.ok ⟨c.value, true⟩) m' := by
  have hvalue : Reaches (fun n => Returning.value n (e.tree .returns)) m (.ok c.value) m' :=
    Returning.value_of_completes h
  rw [Statement.tree,
    Ends.eq_reaches fun n => Returning.eval_giveBack_some n (e.tree .returns)]
  exact Reaches.map_iff.2 ⟨_, hvalue, rfl⟩

/-! ## Loops -/

section Loops

variable (hst : st.has .blocks = true) {c t : Tree} {v d : Completion}
include hst

/-- **A loop is one round and then the loop**, at every stage that has loops. -/
theorem ends_loop_iff {r : Except Fault Completion} :
    Ends st .statement (Tree.loop st c t) m r m' ↔
      Reaches (fun n => Node.round (evaluate st n .expression c) (evaluate st n .statement t)
        (evaluate st n .statement (Tree.loop st c t))) m r m' :=
  Node.repeatWhile_reaches (evaluate_growing _ _ _) (evaluate_growing _ _ _)
    (evaluate_growing _ _ _) fun n => evaluate_loop n hst c t

/-- What comes behind the condition of a loop. -/
theorem ends_loop_of_condition (hc : Ends st .expression c m (.ok v) m₁)
    {r : Except Fault Completion} :
    Ends st .statement (Tree.loop st c t) m r m' ↔
      Reaches (fun n => if v.value.truthy then do
          let done ← evaluate st n .statement t
          if done.returning then return done else evaluate st n .statement (Tree.loop st c t)
        else return .normal .null) m₁ r m' := by
  have hbody : Growing fun n => (do
      let done ← evaluate st n .statement t
      if done.returning then return done else evaluate st n .statement (Tree.loop st c t)) :=
    .bind (evaluate_growing _ _ _) fun _ => .ite (.const _) (evaluate_growing _ _ _)
  rw [ends_loop_iff hst]
  exact Reaches.bind_of_ok hc (evaluate_growing _ _ _) (.ite hbody (.const _))

/-- A loop whose condition does not hold is over. -/
theorem ends_loop_done (hc : Ends st .expression c m (.ok v) m') (hv : v.value.truthy = false) :
    Ends st .statement (Tree.loop st c t) m (.ok (.normal .null)) m' := by
  rw [ends_loop_of_condition hst hc]
  simp only [hv, Bool.false_eq_true, if_false]
  exact Reaches.pure_iff.2 ⟨rfl, rfl⟩

/-- A loop whose condition holds runs its body, and is a loop again. -/
theorem ends_loop_round (hc : Ends st .expression c m (.ok v) m₁) (hv : v.value.truthy = true)
    (ht : Ends st .statement t m₁ (.ok d) m₂) (hd : d.returning = false)
    {r : Except Fault Completion} (hloop : Ends st .statement (Tree.loop st c t) m₂ r m') :
    Ends st .statement (Tree.loop st c t) m r m' := by
  rw [ends_loop_of_condition hst hc]
  simp only [hv, if_true]
  rw [Reaches.bind_of_ok ht (evaluate_growing _ _ _) (.ite (.const _) (evaluate_growing _ _ _))]
  simp only [hd, Bool.false_eq_true, if_false]
  exact hloop

/-- **A loop ends** if it has an invariant `P` that counts the rounds which are left: while some
are left the condition holds and the body does not return, and when none is left the condition
fails, on a machine with the property `Q`. -/
theorem ends_loop_of_rounds {P : Nat → Machine → Prop} {Q : Machine → Prop}
    (hround : ∀ k m, P (k + 1) m → ∃ v m₁ d m₂, Ends st .expression c m (.ok v) m₁ ∧
      v.value.truthy = true ∧ Ends st .statement t m₁ (.ok d) m₂ ∧ d.returning = false ∧ P k m₂)
    (hdone : ∀ m, P 0 m → ∃ v m', Ends st .expression c m (.ok v) m' ∧
      v.value.truthy = false ∧ Q m')
    {k : Nat} (h : P k m) :
    ∃ m', Ends st .statement (Tree.loop st c t) m (.ok (.normal .null)) m' ∧ Q m' := by
  induction k generalizing m with
  | zero =>
    obtain ⟨v, m', hc, hv, hm'⟩ := hdone m h
    exact ⟨m', ends_loop_done hst hc hv, hm'⟩
  | succ k ih =>
    obtain ⟨v, m₁, d, m₂, hc, hv, ht, hd, hm₂⟩ := hround k m h
    obtain ⟨m', hloop, hm'⟩ := ih hm₂
    exact ⟨m', ends_loop_round hst hc hv ht hd hloop, hm'⟩

end Loops

end Stepwise
