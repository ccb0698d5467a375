import Stepwise.Proofs.Chains
import Stepwise.Proofs.NamedTrees
import Stepwise.Proofs.Upkeep

/-!
# What a program sees of its environment

From `scopes` on a program reaches its environment by names alone: it looks them up, and binds
them in the innermost frame. So two chains of frames in which every name means the same cannot
be told apart, however the names are spread over their frames.

The functions that are kept in the environment are programs as well, if the name nodes inside of
them hold names: a node that holds the text `$parent` would look at the chain itself. All other
values may be as they like, and so may functions where none is called (`Stage.Admits`).

- `Machine.Alike`: two machines on which every name means the same;
- `Machine.Alike.upkeep`: looking up, binding and calling keep them so;
- `evaluate_impartial`: hence evaluation depends on what names mean, and on nothing else in the
  environment.
-/

namespace Stepwise

/-- The stage lets an environment hold the value: if it is a function that can be called, all
name nodes in its body hold names. -/
def Stage.Admits (st : Stage) (v : Value) : Prop :=
  st.has .functions = true → ∀ (parameters : Value) (body : Tree),
    Node.functionParts v = .ok (parameters, body) → body.named = true

theorem Stage.admits_of_named (st : Stage) {v : Value} (h : v.named = true) : st.Admits v :=
  fun _ _ _ hparts => Node.functionParts_named h _ hparts

/-- A value that is no function is admitted. -/
theorem Value.Plain.admitted {v : Value} (h : v.Plain) (st : Stage) : st.Admits v := by
  intro _ parameters body hparts
  cases v with
  | record fields => exact absurd rfl (h fields)
  | null | bool | int | float | text | list => cases hparts

/-! ## Machines -/

/-- The fields hold only values that the stage admits. -/
def Fields.Admitted (st : Stage) (fields : Fields) : Prop :=
  ∀ (name : Key) (v : Value), Fields.get? name fields = some v → st.Admits v

theorem Fields.Admitted.nil (st : Stage) : Fields.Admitted st [] := by
  intro name v hv
  cases hv

/-- Binding a name to an admitted value. -/
theorem Fields.Admitted.set {st : Stage} {fields : Fields} (h : Fields.Admitted st fields)
    (name : Key) {v : Value} (hv : st.Admits v) :
    Fields.Admitted st (Fields.set name v fields) := by
  intro other w hw
  by_cases hname : other = name
  · rw [hname, Fields.get?_set_self] at hw
    cases hw
    exact hv
  · rw [Fields.get?_set_of_ne v hname] at hw
    exact h other w hw

/-- Two machines on which every name means the same, and no name a value that the stage does
not admit. -/
structure Machine.Alike (st : Stage) (m m' : Machine) : Prop where
  printed : m'.printed = m.printed
  chain : Name.Chain m.environment
  chain' : Name.Chain m'.environment
  agree : Name.Agree m.environment m'.environment
  admitted : Name.Visible st.Admits m.environment

namespace Machine.Alike

variable {st : Stage} {a a' : Value} {printed printed' : String}

/-- Printing keeps two machines alike. -/
theorem print (h : Alike st ⟨a, printed⟩ ⟨a', printed'⟩) (s : String) :
    Alike st ⟨a, printed ++ s⟩ ⟨a', printed' ++ s⟩ where
  printed := congrArg (· ++ s) h.printed
  chain := h.chain
  chain' := h.chain'
  agree := h.agree
  admitted := h.admitted

/-- Binding a name to one value on both machines keeps them alike. -/
theorem assign {fields fields' : Fields}
    (h : Alike st ⟨.record fields, printed⟩ ⟨.record fields', printed'⟩) (x : Identifier)
    {v : Value} (hv : st.Admits v) :
    Alike st ⟨.record (Fields.set x.text v fields), printed⟩
      ⟨.record (Fields.set x.text v fields'), printed'⟩ where
  printed := h.printed
  chain := h.chain.set x v
  chain' := h.chain'.set x v
  agree y := by
    by_cases hy : y.text = x.text
    · rw [hy, Name.resolve_set_self, Name.resolve_set_self]
    · rw [Name.resolve_set_of_ne hy, Name.resolve_set_of_ne hy]
      exact h.agree y
  admitted := h.admitted.set x hv

/-- The frames of one call on two such machines. -/
theorem frame (h : Alike st ⟨a, printed⟩ ⟨a', printed'⟩) {fields : Fields}
    (hfields : fields.Admitted st) :
    Alike st ⟨.record (Fields.set Name.parentField a fields), printed⟩
      ⟨.record (Fields.set Name.parentField a' fields), printed'⟩ where
  printed := h.printed
  chain := h.chain.frame fields
  chain' := h.chain'.frame fields
  agree x := by
    rw [Name.resolve_frame, Name.resolve_frame]
    cases Fields.get? x.text fields with
    | some v => rfl
    | none => exact h.agree x
  admitted := h.admitted.frame fun x v hv => hfields x.text v hv

end Machine.Alike

/-! ## Evaluation -/

section Evaluation

open Action (Preserves)

variable {st : Stage}

/-- **Looking a name up**: the one way to read the environment. -/
theorem Node.lookup_preserves_alike (hst : st.has .scopes = true) {node : Tree}
    (hnode : Value.named node = true) (htag : node.field "tag" = .ok (.text "<identifier>")) :
    Preserves (Machine.Alike st) st.Admits (Node.lookup st node) := by
  have hname : Yields (fun s => ∃ x : Identifier, s = x.text) (Node.name node) := by
    refine (Value.name_of_named hnode htag).andThen ?_
    rintro _ ⟨x, rfl⟩
    exact .pure ⟨x, rfl⟩
  refine .bind (.lift hname) ?_
  rintro _ ⟨x, rfl⟩
  simp only [hst, if_true]
  intro m m' hm
  exact ⟨hm.agree x, hm, fun v hv => hm.admitted x v hv⟩

/-- **Binding a name**: the one way to change it. -/
theorem Action.assign_preserves_alike (x : Identifier) {v : Value} (hv : st.Admits v) :
    Preserves (Machine.Alike st) (fun _ => True) (Action.assign (.text x.text) v) := by
  rintro ⟨a, printed⟩ ⟨a', printed'⟩ hm
  obtain ⟨fields, rfl⟩ := hm.chain.exists_fields
  obtain ⟨fields', rfl⟩ := hm.chain'.exists_fields
  exact ⟨rfl, hm.assign x hv, .pure trivial⟩

/-- **Evaluation keeps two machines alike**: what `Upkeep` asks of the parts. -/
theorem Machine.Alike.upkeep (hst : st.has .scopes = true) : Upkeep st (Machine.Alike st)
    (fun t => Value.named t = true) st.Admits (Fields.Admitted st) where
  part ht hget := by
    simp only [Value.named, Bool.and_eq_true] at ht
    exact Fields.named_of_get? ht.2 hget
  missing := rfl
  null := st.admits_of_named rfl
  int n := (Value.plain_int n).admitted st
  float x := (Value.plain_float x).admitted st
  operator op a b _ _ := fun v hv => (op.apply_plain a b v hv).admitted st
  literal ht := st.admits_of_named ht
  body hfunctions hf := fun parts hparts => hf hfunctions parts.1 parts.2 hparts
  empty := .nil st
  bind name hfields hv := hfields.set name hv
  print s hm := hm.print s
  lookup hnode htag := by
    rw [Stage.nameTag_of_blocks (Stage.has_of_rank_le hst (by decide))] at htag
    exact Node.lookup_preserves_alike hst hnode htag
  assign hplace htag hvalue hv := by
    rw [Stage.nameTag_of_blocks (Stage.has_of_rank_le hst (by decide))] at htag
    obtain ⟨x, rfl⟩ := Value.name_of_named hplace htag _ hvalue
    exact Action.assign_preserves_alike x hv
  enter hfields hm := hm.frame hfields
  leave hm hinner := ⟨hinner.printed, hm.chain, hm.chain', hm.agree, hm.admitted⟩

/-- On two machines that are alike the action gives the same result, with the property, and
leaves machines that are alike. -/
abbrev Action.Impartial {α : Type} (st : Stage) (P : α → Prop) (x : Action α) : Prop :=
  Related (Machine.Alike st) P x x

/-- The completion's value is one that the stage admits. -/
def Stage.Carries (st : Stage) (c : Completion) : Prop := st.Admits c.value

/-- On named trees the evaluator is impartial. -/
def Evaluator.Impartial (st : Stage) (part : Evaluator) : Prop :=
  ∀ (mode : Mode) (t : Tree), Value.named t = true → Action.Impartial st st.Carries (part mode t)

/-- **Evaluation depends on what names mean, and on nothing else in the environment.** -/
theorem evaluate_impartial (hst : st.has .scopes = true) (n : Nat) :
    Evaluator.Impartial st (evaluate st n) :=
  (Machine.Alike.upkeep hst).evaluate n

end Evaluation

/-! ## Programs -/

/-- With every budget the tree gives the same result and prints the same in the two environments,
and leaves chains of frames that agree. -/
def Tree.Alike (st : Stage) (t : Tree) (env env' : Value) : Prop :=
  ∀ (n : Nat) (printed : String) (r r' : Except Fault Completion) (m m' : Machine),
    evaluate st n .statement t ⟨env, printed⟩ = (r, m) →
    evaluate st n .statement t ⟨env', printed⟩ = (r', m') →
    r' = r ∧ m'.printed = m.printed ∧ Name.Chain m.environment ∧ Name.Chain m'.environment ∧
      Name.Agree m.environment m'.environment

/-- **A program sees of a chain of frames what its names mean.** Two chains that agree cannot be
told apart, so a chain can be collapsed into one frame. The condition on values is only about
functions that can be called: at `scopes` there is none. -/
theorem Program.evaluates_by_names {st : Stage} (hst : st.has .scopes = true) {code : String}
    {t : Tree} (ht : Program.tree st code = .ok t) {env : Value} (henv : Name.Chain env)
    (hvalues : Name.Visible st.Admits env) :
    (∀ env', Name.Chain env' → Name.Agree env env' → t.Alike st env env') ∧
      t.Alike st env (Name.collapse env) := by
  have hblocks : st.has .blocks = true := by cases st <;> first | rfl | cases hst
  obtain ⟨s, rfl⟩ := Program.tree_image ht
  have hagreeing : ∀ env', Name.Chain env' → Name.Agree env env' →
      Tree.Alike st (s.tree st) env env' := by
    intro env' henv' hagree n printed r r' m m' hrun hrun'
    have hm : Machine.Alike st ⟨env, printed⟩ ⟨env', printed⟩ :=
      ⟨rfl, henv, henv', hagree, hvalues⟩
    obtain ⟨hsame, halike, -⟩ :=
      evaluate_impartial hst n .statement _ (s.tree_named hblocks) _ _ hm
    rw [hrun, hrun'] at hsame halike
    exact ⟨hsame, halike.printed, halike.chain, halike.chain', halike.agree⟩
  exact ⟨hagreeing, hagreeing _ henv.collapse (Name.resolve_collapse henv)⟩

namespace Program

/-- If all frames of a chain hold only named values, every stage admits what names stand for. -/
theorem visible_of_named (st : Stage) {env : Value} (h : Name.Chain env)
    (hnamed : env.named = true) : Name.Visible st.Admits env := by
  intro x v hv
  refine st.admits_of_named ?_
  induction h with
  | outermost hnone =>
    simp only [Value.named, Bool.and_eq_true] at hnamed
    obtain hget | ⟨parent, hparent, -⟩ := Name.bound_or_outer hv
    · exact Fields.named_of_get? hnamed.2 hget
    · cases hnone.symm.trans hparent
  | closed hnull =>
    simp only [Value.named, Bool.and_eq_true] at hnamed
    obtain hget | ⟨parent, hparent, hv⟩ := Name.bound_or_outer hv
    · exact Fields.named_of_get? hnamed.2 hget
    · cases hnull.symm.trans hparent
      cases hv
  | inside houter _ ih =>
    simp only [Value.named, Bool.and_eq_true] at hnamed
    obtain hget | ⟨parent, hparent, hv⟩ := Name.bound_or_outer hv
    · exact Fields.named_of_get? hnamed.2 hget
    · cases houter.symm.trans hparent
      exact ih (Fields.named_of_get? hnamed.2 hparent) hv

/-- A name node, with any text. -/
def nameNode (text : String) : Tree := Tree.node "<identifier>" [("value", .text text)]

/-- A chain in which `x` is bound twice: inside, and beside a function `f` that adds it to its
argument. -/
def shadowing : Value :=
  .record [("x", .int 1), (Name.parentField, .record [("x", .int 2),
    ("f", Tree.function (nameNode "a")
      (Tree.block [Tree.binary .returns "+" (nameNode "a") (nameNode "x")]))])]

theorem shadowing_chain : Name.Chain shadowing := .inside rfl (.outermost rfl)

theorem evaluates_by_names_shadowing :
    Program.tree .returns "y=f(x)" =
        .ok (Tree.assign .returns (nameNode "y")
          (Tree.call .returns (nameNode "f") (nameNode "x"))) ∧
      Name.Chain shadowing ∧
      Name.Visible (Stage.Admits .returns) shadowing ∧
      Name.resolve "x" (Name.collapse shadowing) = .ok (.int 1) ∧
      (Tree.assign .returns (nameNode "y")
        (Tree.call .returns (nameNode "f") (nameNode "x"))).Alike .returns shadowing
          (Name.collapse shadowing) := by
  have htree : Program.tree .returns "y=f(x)" =
      .ok (Tree.assign .returns (nameNode "y")
        (Tree.call .returns (nameNode "f") (nameNode "x"))) := by rfl
  have hvalues : Name.Visible (Stage.Admits .returns) shadowing :=
    visible_of_named .returns shadowing_chain (by decide)
  refine ⟨htree, shadowing_chain, hvalues, rfl, ?_⟩
  exact (evaluates_by_names rfl htree shadowing_chain hvalues).2

/-- A function that no text writes: its name node holds the field of the enclosing frame. -/
def parentReader : Value :=
  Tree.function .null (nameNode Name.parentField)

/-- **A function that no parser made can tell two chains apart**, although every name means the
same in both: it gives back the chain that it is called in. -/
theorem parentReader_tells_chains_apart : ∃ (t : Tree) (env env' : Value),
    Program.tree .returns "f()" = .ok t ∧ Name.Chain env ∧ Name.Chain env' ∧
      Name.Agree env env' ∧ ¬ t.Alike .returns env env' := by
  let env : Value := .record [("f", parentReader)]
  let env' : Value := .record [(Name.parentField, env)]
  refine ⟨Tree.call .returns (nameNode "f") .null, env, env', rfl, .outermost rfl,
    .inside rfl (.outermost rfl), ?_, ?_⟩
  · intro x
    have hx : Fields.get? x.text [(Name.parentField, env)] = none := by
      simp [Fields.get?, x.text_ne_parent.symm]
    rw [Name.resolve_record, hx]
    rfl
  · intro h
    have hsame : (.ok (.normal env') : Except Fault Completion) = .ok (.normal env) :=
      (h 3 "" _ _ _ _ rfl rfl).1
    simp [Completion.normal, Name.parentField, env, env'] at hsame

end Program

end Stepwise
