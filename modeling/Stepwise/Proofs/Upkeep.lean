import Stepwise.Program
import Stepwise.Proofs.Related

/-!
# What evaluation keeps

An evaluator works on the machine in few ways: it prints, looks a name up, binds one, and runs the
body of a function in a new frame. A relation between machines that these four keep is kept by
every evaluation, at whatever stage; and so are properties of the trees that are evaluated, of the
values that they have and of the fields of new frames.

- `Operator.apply_derived`: what an operator can give;
- `Action.Preserves R P x`: on machines with `R` the action gives one result, which has the property
  `P`, and leaves machines with `R`;
- `PlainUpkeep st R T V`, `Upkeep st R T V F`: what the relation and the properties have to satisfy
  at a stage, without control flow and in general;
- `PlainUpkeep.evaluate`, `Upkeep.evaluate`: then evaluation keeps them. There is one lemma for each
  function of the evaluators;
- `Program.run_behind`, `evaluate_silent`: so no program can tell what was printed before it, and
  without control flow nothing is printed.
-/

namespace Stepwise

/-! ## Fields and chains -/

/-- A field that can be asked for is there. -/
theorem Value.get?_of_field {name : String} {fields : Fields} {v : Value}
    (h : (Value.record fields).field name = .ok v) : Fields.get? name fields = some v := by
  simp only [field] at h
  split at h
  · cases h
    assumption
  · cases h

namespace Tree

variable {T : Value → Prop}

mutual

/-- All members of a chain have a property that goes from a node to the following one. -/
theorem forall_mem_members
    (hnext : ∀ {fields : Fields} {v : Value}, T (.record fields) →
      Fields.get? "next" fields = some v → T v) :
    ∀ t : Tree, T t → ∀ u ∈ members t, T u
  | .record fields, ht => by
    intro u hu
    rw [members] at hu
    split at hu
    · cases hu
    · obtain rfl | hu := List.mem_cons.1 hu
      · exact ht
      · exact forall_mem_followers hnext fields (fun v hv => hnext ht hv) u hu
  | .null, ht | .bool _, ht | .int _, ht | .float _, ht | .text _, ht | .list _, ht => by
    intro u hu
    rw [members] at hu
    · split at hu
      · rw [List.mem_singleton.1 hu]
        exact ht
      · cases hu
    · simp

/-- The same for what follows a node with these fields. -/
theorem forall_mem_followers
    (hnext : ∀ {fields : Fields} {v : Value}, T (.record fields) →
      Fields.get? "next" fields = some v → T v) :
    ∀ fields : Fields, (∀ v, Fields.get? "next" fields = some v → T v) →
      ∀ u ∈ followers fields, T u
  | [], _ => by
    intro u hu
    cases hu
  | (key, v) :: rest, hfields => by
    rw [followers]
    split
    · refine forall_mem_members hnext v (hfields v ?_)
      rw [Fields.get?, if_pos ‹_›]
    · refine forall_mem_followers hnext rest fun w hw => hfields w ?_
      rwa [Fields.get?, if_neg ‹_›]

end

end Tree

/-! ## Operators -/

/-- A number, a text, or a list of items of the operands. -/
def Value.Derived (a b : Value) : Value → Prop
  | .int _ | .float _ | .text _ => True
  | .list items => ∀ item ∈ items, ∃ operand, (a = .list operand ∨ b = .list operand) ∧
      item ∈ operand
  | .null | .bool _ | .record _ => False

section Operators

open Value (Derived)

variable {a b : Value}

/-- Numbers are combined to a number. -/
theorem Numeric.combine_derived (onInts : Int → Int → Int) (onFloats : Float → Float → Float)
    (x y : Numeric) : Yields (Derived a b) (Numeric.combine onInts onFloats x y) := by
  unfold Numeric.combine
  split
  · exact .pure trivial
  · exact .bind fun _ _ => .bind fun _ _ => .pure trivial

theorem Numeric.divide_derived (x y : Numeric) : Yields (Derived a b) (Numeric.divide x y) := by
  unfold Numeric.divide
  split
  · split
    · exact .pure trivial
    · exact .error _
  · exact .bind fun _ _ => .bind fun _ _ => .pure trivial

theorem Value.onNumbers_derived {op : Numeric → Numeric → Except Fault Value}
    (h : ∀ x y, Yields (Derived a b) (op x y)) : Yields (Derived a b) (Value.onNumbers op a b) := by
  unfold Value.onNumbers
  split
  · exact h _ _
  · exact .error _

/-- Repeating gives the text or list over and over, or none of it. -/
theorem Value.repeated_derived (count : Int) {v : Value} (hv : v = a ∨ v = b) :
    Yields (Derived a b) (v.repeated count) := by
  cases v with
  | text => exact .pure trivial
  | list items =>
    refine .pure fun item hitem => ⟨items, hv.imp Eq.symm Eq.symm, ?_⟩
    obtain ⟨copy, hcopy, hitem⟩ := List.mem_flatten.1 hitem
    rwa [(List.mem_replicate.1 hcopy).2] at hitem
  | null | bool | int | float | record => exact .error _

/-- Of sums of any values: a number, or one text or list behind the other. -/
theorem Value.add_derived : Yields (Derived a b) (a.add b) := by
  unfold Value.add
  split
  · exact .pure trivial
  · refine .pure fun item hitem => ?_
    obtain hitem | hitem := List.mem_append.1 hitem
    · exact ⟨_, .inl rfl, hitem⟩
    · exact ⟨_, .inr rfl, hitem⟩
  · exact Value.onNumbers_derived (Numeric.combine_derived _ _)

/-- Of products: a number, or a repeated text or list. -/
theorem Value.multiply_derived : Yields (Derived a b) (a.multiply b) := by
  unfold Value.multiply
  split
  · exact Numeric.combine_derived _ _ _ _
  · exact Value.repeated_derived _ (.inr rfl)
  · exact Value.repeated_derived _ (.inl rfl)
  · exact .error _

/-- **What operators give**: a number, a text, or a list of items of the operands. -/
theorem Operator.apply_derived (op : Operator) (a b : Value) :
    Yields (Derived a b) (op.apply a b) := by
  have relation : ∀ r, Yields (Derived a b) (Operation.relation r a b) :=
    fun r => .bind fun _ _ => .pure trivial
  cases op with
  | plus => exact Value.add_derived
  | minus => exact Value.onNumbers_derived (Numeric.combine_derived _ _)
  | times => exact Value.multiply_derived
  | divide =>
    exact .ite (fun _ => .error _) fun _ => Value.onNumbers_derived Numeric.divide_derived
  | less | greater | lessEqual | greaterEqual => exact relation _
  | equal | unequal => exact .pure trivial
  | and | or => exact .bind fun _ _ => .pure trivial

end Operators

/-- Whatever a stage knows as an operator is one of the language. -/
theorem Operation.exists_operator {st : Stage} {tag : Value}
    {op : Value → Value → Except Fault Value} (h : find? st tag = some op) :
    ∃ operator : Operator, op = operator.apply := by
  cases tag with
  | text s =>
    unfold find? arithmetic? logical? at h
    grind [Operator.apply]
  | null | bool | int | float | list | record => cases h

/-! ## What is to be kept -/

/-- On related machines the action gives one result, with the property, and leaves related
machines. -/
abbrev Action.Preserves {α : Type} (R : Machine → Machine → Prop) (P : α → Prop) (x : Action α) :
    Prop :=
  Action.Related R P x x

/-- The value of the completion has the property. -/
abbrev Completion.Carries (V : Value → Prop) (c : Completion) : Prop := V c.value

/-- The evaluator takes trees with `T` to values with `V` and keeps machines related. -/
def Evaluator.Preserves (R : Machine → Machine → Prop) (T V : Value → Prop) (part : Evaluator) :
    Prop :=
  ∀ (mode : Mode) (t : Tree), T t → Action.Preserves R (Completion.Carries V) (part mode t)

/-- What it takes to keep a relation `R` between machines at the stages without control flow, with
a property `T` of the trees that are evaluated and `V` of values. -/
structure PlainUpkeep (st : Stage) (R : Machine → Machine → Prop) (T V : Value → Prop) : Prop where
  part : ∀ {fields : Fields} {name : String} {t : Tree}, T (.record fields) →
    Fields.get? name fields = some t → T t
  null : V .null
  int : ∀ n, V (.int n)
  float : ∀ x, V (.float x)
  operator : ∀ (op : Operator) {a b : Value}, V a → V b → Yields V (op.apply a b)
  lookup : ∀ {node : Tree}, T node → node.field "tag" = .ok (.text st.nameTag) →
    Action.Preserves R V (Node.lookup st node)
  assign : ∀ {place : Tree} {name v : Value}, T place →
    place.field "tag" = .ok (.text st.nameTag) → place.field "value" = .ok name → V v →
    Action.Preserves R (fun _ => True) (Action.assign name v)

/-- What it takes at all stages, with a property `F` of the fields of frames. -/
structure Upkeep (st : Stage) (R : Machine → Machine → Prop) (T V : Value → Prop)
    (F : Fields → Prop) : Prop extends PlainUpkeep st R T V where
  missing : T .null
  /-- A function node is its own value. -/
  literal : ∀ {node : Tree}, T node → V node
  body : ∀ {f : Value}, st.has .functions = true → V f →
    Yields (fun parts => T parts.2) (Node.functionParts f)
  empty : F []
  bind : ∀ {fields : Fields} {v : Value} (name : Key), F fields → V v →
    F (Fields.set name v fields)
  print : ∀ {m m' : Machine} (s : String), R m m' →
    R ⟨m.environment, m.printed ++ s⟩ ⟨m'.environment, m'.printed ++ s⟩
  enter : ∀ {m m' : Machine} {fields : Fields}, F fields → R m m' →
    R ⟨.record (Fields.set Name.parentField m.environment fields), m.printed⟩
      ⟨.record (Fields.set Name.parentField m'.environment fields), m'.printed⟩
  leave : ∀ {m m' inner inner' : Machine}, R m m' → R inner inner' →
    R ⟨m.environment, inner.printed⟩ ⟨m'.environment, inner'.printed⟩

namespace PlainUpkeep

open Action (Preserves)

variable {st : Stage} {R : Machine → Machine → Prop} {T V : Value → Prop}
  {part : Evaluator} {node : Tree} (h : PlainUpkeep st R T V)

include h

/-! ## Parts of trees -/

section Trees

variable (hnode : T node)

include hnode

/-- The parts of a node that is kept are kept. -/
theorem field (name : String) : Yields T (node.field name) := by
  cases node with
  | record fields => exact fun v hv => h.part hnode (Value.get?_of_field hv)
  | null | bool | int | float | text | list => exact .error _

/-- The parts of a call, which have to be there. -/
theorem callField (name : String) : Yields T (Node.callField name node) := by
  cases node with
  | record fields =>
    simp only [Node.callField]
    split
    · exact .pure (h.part hnode ‹_›)
    · exact .error _
  | null | bool | int | float | text | list => exact .error _

end Trees

theorem members {t : Tree} (ht : T t) : ∀ u ∈ Tree.members t, T u :=
  Tree.forall_mem_members (T := T) (fun hrecord hget => h.part hrecord hget) t ht

/-! ## Nodes -/

/-- A number node gives a number. -/
theorem number (node : Tree) : Yields V (Node.number node) := by
  refine .bind fun v _ => ?_
  cases v with
  | int n => exact .pure (h.int n)
  | float x => exact .pure (h.float x)
  | null | bool | text | list | record => exact .error _

theorem negate (v : Value) : Yields V v.negate := by
  unfold Value.negate
  split
  · exact .pure (h.int _)
  · exact .pure (h.float _)
  · exact .error _

theorem invert (v : Value) : V (Operation.invert v) := h.int _

/-- Operations give derived values of what they are given. -/
theorem operation {tag : Value} {op : Value → Value → Except Fault Value}
    (hop : Operation.find? st tag = some op) {a b : Value} (ha : V a) (hb : V b) :
    Yields V (op a b) := by
  obtain ⟨operator, rfl⟩ := Operation.exists_operator hop
  exact h.operator operator ha hb

variable (hpart : part.Preserves R T V) (hnode : T node)

include hpart hnode

theorem operand (field : String) : Preserves R V (Node.operand part node field) :=
  .bind (.lift (h.field hnode field)) fun t ht =>
    .bind (hpart .statement t ht) fun _ hc => .pure hc

theorem operands : Preserves R (fun p => V p.1 ∧ V p.2) (Node.operands part node) :=
  .bind (h.operand hpart hnode _) fun _ hleft =>
    .bind (h.operand hpart hnode _) fun _ hright => .pure ⟨hleft, hright⟩

/-- The operands are evaluated first, then the operator is looked for. -/
theorem operatorAfter (tag : Value) : Preserves R V (Node.operatorAfter part st tag node) := by
  refine .bind (h.operands hpart hnode) fun p hp => ?_
  cases hop : Operation.find? st tag with
  | some op => exact .lift (h.operation hop hp.1 hp.2)
  | none => exact .throw _

/-- The operator is looked for first. -/
theorem operatorBefore (tag : Value) : Preserves R V (Node.operatorBefore part st tag node) := by
  unfold Node.operatorBefore
  cases hop : Operation.find? st tag with
  | some op =>
    exact .bind (h.operands hpart hnode) fun p hp => .lift (h.operation hop hp.1 hp.2)
  | none => exact .throw _

/-- The value that is assigned is that of a part. -/
theorem assignment {nameTag : String} (hname : st.nameTag = nameTag) (target source : String) :
    Preserves R (fun _ => True) (Node.assignment part nameTag target source node) := by
  unfold Node.assignment
  refine .bind (.lift (h.field hnode target)) fun place hplace => ?_
  refine .liftBind fun tag htag => .ite (fun _ => .throwBind) fun hword => ?_
  -- only places with the tag of names get this far
  have hplaced : place.field "tag" = .ok (.text st.nameTag) := by
    have hisText : tag.isText nameTag = true := by simpa using hword
    rw [htag, Value.eq_text_of_isText hisText, hname]
  refine .liftBind fun name hvalue => ?_
  refine .bind (.lift (h.field hnode source)) fun e he => .ite (fun _ => .throwBind) fun _ => ?_
  exact .bind (hpart .expression e he) fun c hc => h.assign hplace hplaced hvalue hc

omit hnode hpart in
/-- A node with the tag of names is looked up. -/
theorem named {tag : Value} {nameTag : String} (hname : st.nameTag = nameTag)
    (hnode : T node) (htag : node.field "tag" = .ok tag) (hword : tag.isText nameTag = true) :
    Preserves R V (Node.lookup st node) := by
  rw [Value.eq_text_of_isText hword, ← hname] at htag
  exact h.lookup hnode htag

/-! ## Stages without control flow -/

theorem plainExpression (hname : st.nameTag = "identifier") :
    Preserves R V (Plain.expression st part node) := by
  unfold Plain.expression
  refine .liftBind fun tag htag => .ite (fun _ => ?_) fun _ => .ite (fun hword => ?_) fun _ =>
    .ite (fun _ => ?_) fun _ => .ite (fun _ => ?_) fun _ => ?_
  · exact .lift (h.number node)
  · exact h.named hname hnode htag (Bool.and_eq_true_iff.1 hword).1
  · exact .bind (h.operand hpart hnode _) fun v _ => .lift (h.negate v)
  · exact .bind (h.operand hpart hnode _) fun v _ => .pure (h.invert v)
  · exact h.operatorAfter hpart hnode tag

/-- One step of the stages up to `conditions`. -/
theorem plainStep (hname : st.nameTag = "identifier") (mode : Mode) :
    Preserves R (Completion.Carries V) (Plain.step st part mode node) := by
  cases mode with
  | statement =>
    refine .bind (P := V) ?_ fun _ hv => .pure hv
    refine .liftBind fun _ _ => .ite (fun _ => ?_) fun _ => h.plainExpression hpart hnode hname
    exact .bind (h.assignment hpart hnode hname _ _) fun _ _ => .pure h.null
  | expression => exact .bind (h.plainExpression hpart hnode hname) fun _ hv => .pure hv

omit hpart hnode in
/-- At the stages without control flow evaluation keeps what looking up and binding keep. -/
theorem evaluate (hst : st.has .blocks = false) (n : Nat) :
    (Stepwise.evaluate st n).Preserves R T V := by
  induction n with
  | zero => exact fun _ _ _ => .throw _
  | succ n ih =>
    intro mode t ht
    cases st with
    | expressions | assignments | booleans | conditions => exact h.plainStep ih ht rfl mode
    | blocks | scopes | functions | returns => cases hst

end PlainUpkeep

namespace Upkeep

open Action (Preserves)

variable {st : Stage} {R : Machine → Machine → Prop} {T V : Value → Prop} {F : Fields → Prop}
  {part : Evaluator} {node : Tree} (h : Upkeep st R T V F)

include h

/-- A part that may be missing is null then. -/
theorem optional (hnode : T node) (name : String) : Yields T (node.optional name) := by
  cases node with
  | record fields =>
    refine .pure ?_
    cases hget : Fields.get? name fields with
    | some v => exact h.part hnode hget
    | none => exact h.missing
  | null | bool | int | float | text | list => exact .error _

theorem printing (s : String) : Preserves R (fun _ => True) (Action.print s) := by
  intro m m' hm
  exact ⟨rfl, h.print s hm, .pure trivial⟩

/-- The frame of a call has the caller's environment behind it. -/
theorem inFrame {α : Type} {P : α → Prop} {x : Action α} (hx : Preserves R P x) {fields : Fields}
    (hfields : F fields) :
    Preserves R P (Action.environment >>= fun caller =>
      Action.inFrame (.record (Fields.set Name.parentField caller fields)) x) := by
  intro m m' hm
  -- the action runs in the frame; behind it the caller's environment is put back
  obtain ⟨hsame, hrelated, hyields⟩ := hx _ _ (h.enter hfields hm)
  exact ⟨hsame, h.leave hm hrelated, hyields⟩

/-- Passing a completion on keeps its value. -/
theorem passOn {c : Completion} (hc : c.Carries V) : (Returning.passOn c).Carries V := by
  unfold Returning.passOn
  split
  · exact hc
  · exact h.null

variable (hpart : part.Preserves R T V)

include hpart

/-- Printing values, one after the other. -/
theorem printAll : ∀ es : List Tree, (∀ e ∈ es, T e) →
    Preserves R (fun _ => True) (Node.printAll part es)
  | [], _ => h.printing _
  | e :: rest, hes => by
    rw [List.forall_mem_cons] at hes
    refine .bind (hpart .expression e hes.1) fun _ _ => .liftBind fun _ _ => ?_
    exact .bind (h.printing _) fun _ _ => printAll rest hes.2

variable (hnode : T node)

include hnode

/-! ## Stages with control flow -/

omit hnode in
/-- Arguments are bound as far as there are parameters; the rest are left over. -/
theorem structuredArguments : ∀ {frame : Fields} (ps as : List Tree), (∀ a ∈ as, T a) → F frame →
    Preserves R (fun bound => F bound.1) (Structured.bindArguments part frame ps as)
  | _, [], _, _, hframe => .pure hframe
  | _, _ :: _, [], _, _ => .throw _
  | frame, p :: ps, a :: as, has, hframe => by
    rw [List.forall_mem_cons] at has
    unfold Structured.bindArguments
    refine .liftBind fun _ _ => .bind (h.printing _) fun _ _ => ?_
    refine .liftBind fun _ _ => .bind (h.printing _) fun _ _ => ?_
    refine .liftBind fun name _ => .liftBind fun _ _ => .bind (h.printing _) fun _ _ => ?_
    refine .bind (hpart .statement a has.1) fun c hc => .liftBind fun bound hbound => ?_
    obtain ⟨key, rfl⟩ := Fields.exists_set_of_bind hbound
    exact structuredArguments ps as has.2 (h.bind key hframe hc)

/-- A call evaluates its callee, its arguments and the body in the new frame. -/
theorem structuredCall (hst : st.has .functions = true) :
    Preserves R V (Structured.call part node) := by
  unfold Structured.call
  refine .bind (.lift (h.callField hnode _)) fun callee hcallee => ?_
  refine .bind (.lift (h.callField hnode _)) fun arguments harguments => ?_
  refine .bind (hpart .expression callee hcallee) fun f hf => ?_
  -- the called function is a program of its own, in a value of the environment
  refine .bind (.lift (h.body hst hf)) fun parts hbody => ?_
  refine .bind (h.structuredArguments hpart _ _ (h.members harguments) h.empty) ?_
  intro bound hbound
  refine .ite (fun _ => .throwBind) fun _ => .ite (fun _ => .throwBind) fun _ => ?_
  rw [← bind_assoc]
  exact .bind (h.inFrame (hpart .statement _ hbody) hbound) fun _ hc => .pure hc

theorem structuredExpression (hname : st.nameTag = "<identifier>") :
    Preserves R V (Structured.expression st part node) := by
  unfold Structured.expression
  refine .liftBind fun tag htag => .ite (fun _ => ?_) fun _ => .ite (fun hword => ?_) fun _ =>
    .ite (fun _ => ?_) fun _ => .ite (fun _ => ?_) fun _ => .ite (fun _ => ?_) fun hst => ?_
  -- the expressions of `blocks` and `scopes`
  · exact .lift (h.number node)
  · exact h.named hname hnode htag hword
  · exact .bind (h.operand hpart hnode _) fun v _ => .lift (h.negate v)
  · exact .bind (h.operand hpart hnode _) fun v _ => .pure (h.invert v)
  · exact h.operatorAfter hpart hnode tag
  refine .ite (fun _ => ?_) fun _ => .ite (fun _ => ?_) fun _ => .ite (fun _ => ?_) fun _ => ?_
  -- and those of `functions`: literals, calls, a return (printed before it ends the program)
  · exact .pure (h.literal hnode)
  · exact h.structuredCall hpart hnode (by simpa using hst)
  · exact .liftBind fun _ _ => .bind (h.printing _) fun _ _ => .throw _
  · exact h.operatorBefore hpart hnode tag

/-- The statements of a block, one after the other. -/
theorem structuredBlock : Preserves R (fun _ => True) (Structured.block part node) := by
  unfold Structured.block
  refine .bind (.lift (h.field hnode _)) fun s hs => ?_
  refine .bind (hpart .statement s hs) fun _ _ => ?_
  refine .bind (.lift (h.optional hnode _)) fun next hnext => .ite (fun _ => ?_) ?_
  · exact .bind (hpart .statement next hnext) fun _ _ => .pure trivial
  · exact fun _ => .pure trivial

theorem structuredBranch : Preserves R (fun _ => True) (Structured.branch part node) := by
  unfold Structured.branch
  refine .bind (.lift (h.field hnode _)) fun c hc => ?_
  refine .bind (hpart .expression c hc) fun _ _ => .ite (fun _ => ?_) fun _ => ?_
  · refine .bind (.lift (h.field hnode _)) fun s hs => ?_
    exact .bind (hpart .statement s hs) fun _ _ => .pure trivial
  · refine .bind (.lift (h.optional hnode _)) fun alternative halternative => ?_
    refine .ite (fun _ => ?_) fun _ => .pure trivial
    exact .bind (hpart .statement alternative halternative) fun _ _ => .pure trivial

theorem structuredLoop (n : Nat) :
    Preserves R (Completion.Carries V) (Structured.loop part n node) := by
  refine .bind (.lift (h.field hnode _)) fun c hc => ?_
  refine .repeatWhile (hpart .expression c hc) ?_ h.null n
  exact .bind (.lift (h.field hnode _)) fun s hs => hpart .statement s hs

/-- Statements complete with null; only an expression has another value. -/
theorem structuredStatement (hname : st.nameTag = "<identifier>") (n : Nat) :
    Preserves R (Completion.Carries V) (Structured.statement st part n node) := by
  have hnull : Preserves R (Completion.Carries V) (pure (.normal .null)) :=
    .pure h.null
  unfold Structured.statement
  refine .liftBind fun tag _ => .ite (fun _ => ?_) fun _ => .ite (fun _ => ?_) fun _ =>
    .ite (fun _ => ?_) fun _ => .ite (fun _ => ?_) fun _ => .ite (fun _ => ?_) fun _ => ?_
  -- blocks, assignments and branches
  · exact .bind (h.structuredBlock hpart hnode) fun _ _ => hnull
  · exact .bind (h.assignment hpart hnode hname _ _) fun _ _ => hnull
  · exact .bind (h.structuredBranch hpart hnode) fun _ _ => hnull
  -- loops, prints and expressions
  · exact h.structuredLoop hpart hnode n
  · refine .bind (.lift (h.optional hnode _)) fun arguments harguments => ?_
    exact .bind (h.printAll hpart _ (h.members harguments)) fun _ _ => hnull
  · exact .bind (h.structuredExpression hpart hnode hname) fun _ hv => .pure hv

/-- One step of the stages from `blocks` to `functions`. -/
theorem structuredStep (hname : st.nameTag = "<identifier>") (n : Nat) (mode : Mode) :
    Preserves R (Completion.Carries V) (Structured.step st part n mode node) := by
  cases mode with
  | statement => exact h.structuredStatement hpart hnode hname n
  | expression => exact .bind (h.structuredExpression hpart hnode hname) fun _ hv => .pure hv

/-! ## The stage of `returns` -/

omit h hnode in
theorem valueOf {t : Tree} (ht : T t) : Preserves R V (Returning.valueOf part t) :=
  .bind (hpart .statement t ht) fun _ hc => .pure hc

omit hnode in
theorem returningArguments : ∀ {frame : Fields} (ps as : List Tree), (∀ a ∈ as, T a) → F frame →
    Preserves R (fun bound => F bound.1) (Returning.bindArguments part frame ps as)
  | _, [], _, _, hframe => .pure hframe
  | _, _ :: _, [], _, _ => .throw _
  | frame, p :: ps, a :: as, has, hframe => by
    rw [List.forall_mem_cons] at has
    refine .bind (valueOf hpart has.1) fun v hv => .liftBind fun name _ => ?_
    refine .liftBind fun bound hbound => ?_
    obtain ⟨key, rfl⟩ := Fields.exists_set_of_bind hbound
    exact returningArguments ps as has.2 (h.bind key hframe hv)

/-- A call completes with the value of the body. -/
theorem returningCall (hst : st.has .functions = true) :
    Preserves R (Completion.Carries V) (Returning.call part node) := by
  unfold Returning.call
  refine .bind (.lift (h.callField hnode _)) fun callee hcallee => ?_
  refine .bind (.lift (h.callField hnode _)) fun arguments harguments => ?_
  refine .bind (valueOf hpart hcallee) fun f hf => ?_
  refine .bind (.lift (h.body hst hf)) fun parts hbody => ?_
  refine .bind (h.returningArguments hpart _ _ (h.members harguments) h.empty) ?_
  intro bound hbound
  refine .ite (fun _ => .throwBind) fun _ => .ite (fun _ => .throwBind) fun _ => ?_
  exact h.inFrame (hpart .statement _ hbody) hbound

/-- A block completes as the statement that ends it. -/
theorem returningBlock : Preserves R (Completion.Carries V) (Returning.block part node) := by
  unfold Returning.block
  refine .bind (.lift (h.field hnode _)) fun s hs => ?_
  refine .bind (hpart .statement s hs) fun first hfirst => ?_
  refine .bind (.lift (h.optional hnode _)) fun next hnext => .ite (fun _ => ?_) ?_
  · exact .bind (hpart .statement next hnext) fun _ hc => .pure (h.passOn hc)
  · exact fun _ => .pure (h.passOn hfirst)

theorem returningBranch : Preserves R (Completion.Carries V) (Returning.branch part node) := by
  unfold Returning.branch
  refine .bind (.lift (h.field hnode _)) fun c hc => ?_
  refine .bind (valueOf hpart hc) fun _ _ => .ite (fun _ => ?_) fun _ => ?_
  · refine .bind (.lift (h.field hnode _)) fun s hs => ?_
    exact .bind (hpart .statement s hs) fun _ hc => .pure (h.passOn hc)
  · refine .bind (.lift (h.optional hnode _)) fun alternative halternative => ?_
    refine .ite (fun _ => ?_) fun _ => .pure h.null
    exact .bind (hpart .statement alternative halternative) fun _ hc => .pure (h.passOn hc)

theorem returningLoop (n : Nat) :
    Preserves R (Completion.Carries V) (Returning.loop part n node) := by
  refine .bind (.lift (h.field hnode _)) fun c hc => ?_
  refine .repeatWhile (hpart .statement c hc) ?_ h.null n
  exact .bind (.lift (h.field hnode _)) fun s hs => hpart .statement s hs

end Upkeep

namespace Upkeep

open Action (Preserves)

variable {R : Machine → Machine → Prop} {T V : Value → Prop} {F : Fields → Prop} {part : Evaluator}
  {node : Tree}

/-- What a node does once its tag is known, one case for each tag. -/
theorem returningTagged (h : Upkeep .returns R T V F) (hpart : part.Preserves R T V)
    (hnode : T node) {tag : Value} (htag : node.field "tag" = .ok tag) (n : Nat) :
    Preserves R (Completion.Carries V) (Returning.tagged part n tag node) := by
  have hnull : Preserves R (Completion.Carries V) (pure (.normal .null)) :=
    .pure h.null
  unfold Returning.tagged
  refine .ite (fun _ => ?_) fun _ => .ite (fun hword => ?_) fun _ => .ite (fun _ => ?_) fun _ => ?_
  -- numbers, names and function literals
  · exact .bind (.lift (h.number node)) fun _ hv => .pure hv
  · exact .bind (h.named rfl hnode htag hword) fun _ hv => .pure hv
  · exact .pure (h.literal hnode)
  refine .ite (fun _ => ?_) fun _ => .ite (fun _ => ?_) fun _ => .ite (fun _ => ?_) fun _ =>
    .ite (fun _ => ?_) fun _ => ?_
  -- calls, returns, negations
  · exact h.returningCall hpart hnode rfl
  · refine .bind (.lift (h.optional hnode _)) fun e he => ?_
    exact .bind (valueOf hpart he) fun _ hv => .pure hv
  · refine .bind (h.operand hpart hnode _) fun v _ => ?_
    exact .bind (.lift (h.negate v)) fun _ hv => .pure hv
  · exact .bind (h.operand hpart hnode _) fun v _ => .pure (h.invert v)
  refine .ite (fun _ => ?_) fun _ => .ite (fun _ => ?_) fun _ => .ite (fun _ => ?_) fun _ => ?_
  -- blocks, branches, loops
  · exact h.returningBlock hpart hnode
  · exact h.returningBranch hpart hnode
  · exact h.returningLoop hpart hnode n
  refine .ite (fun _ => ?_) fun _ => .ite (fun _ => ?_) fun _ => ?_
  -- prints, assignments and, for all other tags, operators
  · refine .bind (.lift (h.optional hnode _)) fun arguments harguments => ?_
    exact .bind (h.printAll hpart _ (h.members harguments)) fun _ _ => hnull
  · exact .bind (h.assignment hpart hnode rfl _ _) fun _ _ => hnull
  · exact .bind (h.operatorBefore hpart hnode tag) fun _ hv => .pure hv

/-- One step of the last stage; only null has no tag. -/
theorem returningStep (h : Upkeep .returns R T V F) (hpart : part.Preserves R T V) (hnode : T node)
    (n : Nat) : Preserves R (Completion.Carries V) (Returning.step part n node) := by
  unfold Returning.step
  split
  · exact .pure h.null
  · exact .liftBind fun tag htag => h.returningTagged hpart hnode htag n

/-- **Evaluation keeps what its few effects keep.** Each step does if the evaluation of the parts
does, so it follows by induction on the budget. -/
theorem evaluate {st : Stage} (h : Upkeep st R T V F) (n : Nat) :
    (Stepwise.evaluate st n).Preserves R T V := by
  induction n with
  | zero => exact fun _ _ _ => .throw _
  | succ n ih =>
    intro mode t ht
    cases st with
    | expressions | assignments | booleans | conditions => exact h.plainStep ih ht rfl mode
    | blocks | scopes | functions => exact h.structuredStep ih ht rfl n mode
    | returns => exact h.returningStep ih ht n

end Upkeep

/-! ## Machines with the same environment -/

/-- Reading the environment and computing with it keeps a relation between machines with the same
environment. -/
theorem Action.Preserves.reading {R : Machine → Machine → Prop} {P : Value → Prop}
    (f : Value → Except Fault Value)
    (hf : ∀ m m', R m m' → m'.environment = m.environment ∧ Yields P (f m.environment)) :
    Action.Preserves R P (Action.environment >>= fun env => liftM (f env)) := by
  intro m m' hm
  obtain ⟨henv, hyields⟩ := hf m m' hm
  exact ⟨congrArg f henv, hm, hyields⟩

/-- So does looking a name up. -/
theorem Node.lookup_preserves {R : Machine → Machine → Prop} {P : Value → Prop} (st : Stage)
    (node : Tree) (henv : ∀ m m', R m m' → m'.environment = m.environment)
    (hfind : ∀ name m m', R m m' → Yields P (Name.find name m.environment))
    (hresolve : ∀ name m m', R m m' → Yields P (Name.resolve name m.environment)) :
    Action.Preserves R P (Node.lookup st node) := by
  unfold Node.lookup
  refine .liftBind fun name _ => ?_
  split
  · exact Action.Preserves.reading _ fun m m' hm => ⟨henv m m' hm, hresolve name m m' hm⟩
  · exact Action.Preserves.reading _ fun m m' hm => ⟨henv m m' hm, hfind name m m' hm⟩

/-- So does binding one, if it keeps the machines related. -/
theorem Action.assign_preserves {R : Machine → Machine → Prop} (name v : Value)
    (henv : ∀ m m', R m m' → m'.environment = m.environment)
    (hset : ∀ m m' fields key, R m m' → m.environment = .record fields →
      R ⟨.record (Fields.set key v fields), m.printed⟩
        ⟨.record (Fields.set key v fields), m'.printed⟩) :
    Action.Preserves R (fun _ => True) (Action.assign name v) := by
  rintro ⟨env, printed⟩ ⟨env', printed'⟩ hm
  -- a name is bound in records only; elsewhere binding fails and the machines stay as they are
  obtain rfl : env' = env := henv _ _ hm
  cases env' with
  | record fields =>
    rw [Action.assign_record, Action.assign_record]
    cases hbind : Fields.bind name v fields with
    | ok bound =>
      obtain ⟨key, rfl⟩ := Fields.exists_set_of_bind hbind
      exact ⟨rfl, hset _ _ fields key hm rfl, fun _ _ => trivial⟩
    | error e => exact ⟨rfl, hm, fun _ _ => trivial⟩
  | null | bool | int | float | text | list => exact ⟨rfl, hm, fun _ _ => trivial⟩

/-! ## Output -/

/-- The same machine, with other text printed before. -/
def Machine.Behind (earlier : String) (m m' : Machine) : Prop :=
  m' = ⟨m.environment, earlier ++ m.printed⟩

namespace Machine.Behind

variable {earlier : String}

/-- Nothing that was printed before matters, nor is it lost. -/
theorem upkeep (st : Stage) :
    Upkeep st (Behind earlier) (fun _ => True) (fun _ => True) (fun _ => True) where
  part _ _ := trivial
  missing := trivial
  null := trivial
  int _ := trivial
  float _ := trivial
  operator _ _ _ _ _ := fun _ _ => trivial
  literal _ := trivial
  body _ _ := fun _ _ => trivial
  empty := trivial
  bind _ _ _ := trivial
  print s hm := by
    subst hm
    simp [Behind, String.append_assoc]
  -- looking up and assigning do not look at what is printed
  lookup _ _ := Node.lookup_preserves st _ (fun _ _ hm => by rw [hm]) (fun _ _ _ _ _ _ => trivial)
    fun _ _ _ _ _ _ => trivial
  assign _ _ _ _ := Action.assign_preserves _ _ (fun _ _ hm => by rw [hm])
    fun _ _ _ _ hm _ => by rw [hm]; rfl
  enter _ hm := by
    subst hm
    rfl
  leave hm hinner := by
    subst hm hinner
    rfl

/-- An action that cannot tell what was printed before it prints behind it. -/
theorem apply_eq {α : Type} {P : α → Prop} {x : Action α}
    (h : Action.Preserves (Behind earlier) P x) (env : Value) : x ⟨env, earlier⟩ =
      ((x.run env).1, ⟨(x.run env).2.environment, earlier ++ (x.run env).2.printed⟩) := by
  obtain ⟨hsame, hbehind, -⟩ := h ⟨env, ""⟩ ⟨env, earlier⟩ (by simp [Behind])
  exact Prod.ext hsame hbehind

end Machine.Behind

/-- **Output is only ever added to.** Whatever was printed before, a program does the same and
prints the same behind it. -/
theorem Program.run_behind (st : Stage) (code : String) (env : Value) (earlier : String) :
    Program.run st code ⟨env, earlier⟩ =
      (((Program.run st code).run env).1, ⟨((Program.run st code).run env).2.environment,
        earlier ++ ((Program.run st code).run env).2.printed⟩) :=
  Machine.Behind.apply_eq
    (.liftBind fun t _ => (Machine.Behind.upkeep st).evaluate _ .statement t trivial) env

/-- The same machine, on which the text has been printed. -/
def Machine.Showing (text : String) (m m' : Machine) : Prop :=
  m' = m ∧ m.printed = text

/-- Assigning and looking up print nothing. -/
theorem Machine.Showing.upkeep (text : String) (st : Stage) :
    PlainUpkeep st (Showing text) (fun _ => True) (fun _ => True) where
  part _ _ := trivial
  null := trivial
  int _ := trivial
  float _ := trivial
  operator _ _ _ _ _ := fun _ _ => trivial
  lookup _ _ := Node.lookup_preserves st _ (fun _ _ hm => by rw [hm.1]) (fun _ _ _ _ _ _ => trivial)
    fun _ _ _ _ _ _ => trivial
  assign _ _ _ _ := Action.assign_preserves _ _ (fun _ _ hm => by rw [hm.1])
    fun _ _ _ _ hm _ => ⟨by rw [hm.1], hm.2⟩

/-- **Without control flow nothing is printed.** -/
theorem evaluate_silent {st : Stage} (hst : st.has .blocks = false) (n : Nat) (mode : Mode)
    (t : Tree) (m : Machine) : (evaluate st n mode t m).2.printed = m.printed :=
  ((Machine.Showing.upkeep m.printed st).evaluate hst n mode t trivial m m ⟨rfl, rfl⟩).2.1.2

end Stepwise
