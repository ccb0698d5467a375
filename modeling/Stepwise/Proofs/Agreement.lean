import Stepwise.Proofs.Discipline
import Stepwise.Proofs.Reference

/-!
# The evaluator and the reference semantics

On every disciplined program the evaluator does what the reference semantics says
(`evaluate_agrees_with_reference`), with one exception: it does not end an empty
block normally but fails, for want of a statement.

- `sound`: what the evaluator does follows from the rules, by induction on the
  budget;
- `Executes.reaches`: what follows from the rules the evaluator does, by induction
  on the derivation;
- `executes_iff`: both together, for any outcome of empty blocks that fits.
-/

namespace Stepwise

namespace Reference

open Expression (listTree)
open Returning

variable {blank : Bool} {empty : Except Fault Ending}

/-! ## What the evaluator does follows from the rules -/

theorem ne_exhausted_of_bind {α β : Type} {r : Except Fault α} {g : α → Except Fault β}
    (h : r.bind g ≠ .error .exhausted) : r ≠ .error .exhausted := by
  rintro rfl
  exact h rfl

theorem ne_exhausted_of_map {α β : Type} {r : Except Fault α} {g : α → β}
    (h : r.map g ≠ .error .exhausted) : r ≠ .error .exhausted := by
  rintro rfl
  exact h rfl

/-- An expression in a disciplined environment leaves it disciplined, and its value is
disciplined. -/
theorem value_result {n : Nat} {e : Expression} (rest : List Expression) {m m' : Machine}
    {r : Except Fault Value} (he : e.disciplined blank = true)
    (hm : Name.Disciplined blank m.environment)
    (h : value n (listTree .returns (e :: rest)) m = (r, m')) :
    Name.Disciplined blank m'.environment ∧ Yields (Value.Disciplined blank) r :=
  (value_upholds ((upholds blank n).1 e rest he)).result hm h

/-- A statement in a disciplined environment leaves it disciplined. -/
theorem ending_result {n : Nat} {s : Statement} {m m' : Machine} {o : Except Fault Ending}
    (hs : s.disciplined blank = true) (hm : Name.Disciplined blank m.environment)
    (h : ending n (s.tree .returns) m = (o, m')) : Name.Disciplined blank m'.environment := by
  have hupholds : Upholds blank (fun _ => True) (ending n (s.tree .returns)) :=
    .bind ((upholds blank n).2 s hs) fun _ _ => .pure trivial
  exact (hupholds.result hm h).1

/-- With this budget, values of disciplined expressions follow from the rules. -/
def SoundExpressions (blank : Bool) (empty : Except Fault Ending) (n : Nat) : Prop :=
  ∀ {e : Expression} {rest : List Expression} {m m' : Machine} {r : Except Fault Value},
    e.disciplined blank = true → Name.Disciplined blank m.environment →
    value n (listTree .returns (e :: rest)) m = (r, m') → r ≠ .error .exhausted →
    Evaluates empty e rest m r m'

/-- With this budget, endings of disciplined statements follow from the rules. -/
def SoundStatements (blank : Bool) (empty : Except Fault Ending) (n : Nat) : Prop :=
  ∀ {s : Statement} {m m' : Machine} {o : Except Fault Ending},
    s.disciplined blank = true → Name.Disciplined blank m.environment →
    ending n (s.tree .returns) m = (o, m') → o ≠ .error .exhausted →
    Executes empty s m o m'

/-- Binding the arguments follows from the rules, when evaluating with the same budget does. -/
theorem bindAll_sound {n : Nat} (hE : SoundExpressions blank empty n) :
    ∀ {frame : Fields} {xs : List Identifier} {es : List Expression} {m m' : Machine}
      {r : Except Fault Fields}, Expression.allDisciplined blank es = true →
      Name.Disciplined blank m.environment → bindAll n frame xs es m = (r, m') →
      r ≠ .error .exhausted → Binds empty frame xs es m r m'
  | frame, [], [], m, _, _, _, _, h, _ => by
    cases h
    exact .done frame m
  | frame, [], e :: es, m, _, _, _, _, h, _ => by
    cases h
    exact .tooMany frame e es m
  | frame, x :: xs, [], m, _, _, _, _, h, _ => by
    cases h
    exact .tooFew frame x xs m
  | frame, x :: xs, e :: es, m, m', r, hes, hm, h, hr => by
    simp only [Expression.allDisciplined, Bool.and_eq_true] at hes
    obtain ⟨v, m₁, hv, hrest⟩ | ⟨f, hv, rfl⟩ := Action.bind_eq h
    · have hm₁ := (value_result es hes.1 hm hv).1
      exact .next (hE hes.1 hm hv (by simp)) (bindAll_sound hE hes.2 hm₁ hrest hr)
    · exact .fault (hE hes.1 hm hv (by simpa using hr))

/-- A function that has been entered has bound its arguments and executed its body. -/
theorem invoke_sound {n : Nat} (hE : SoundExpressions blank empty n)
    (hS : SoundStatements blank empty n) {xs : List Identifier} {ss : List Statement}
    {es : List Expression} {m m' : Machine} {r : Except Fault Value}
    (hss : (Statement.block ss).disciplined blank = true)
    (hes : Expression.allDisciplined blank es = true)
    (hm : Name.Disciplined blank m.environment)
    (h : invoke n (Identifier.listTree .returns xs) ((Statement.block ss).tree .returns)
      (listTree .returns es) m = (r, m')) (hr : r ≠ .error .exhausted) :
    (∃ f, Binds empty [] xs es m (.error f) m' ∧ r = .error f) ∨
      ∃ frame m₁ o m₂, Binds empty [] xs es m (.ok frame) m₁ ∧
        Executes empty (.block ss)
          ⟨.record (Fields.set Name.parentField m₁.environment frame), m₁.printed⟩ o m₂ ∧
        r = o.map Ending.value ∧ m' = ⟨m₁.environment, m₂.printed⟩ := by
  rw [invoke_listTree] at h
  obtain ⟨frame, m₁, hframe, hbody⟩ | ⟨f, hframe, rfl⟩ := Action.bind_eq h
  · right
    have hbind := bindAll_upholds (upholds blank n).1 [] xs es hes nofun
    obtain ⟨hm₁, hvalues⟩ := hbind.result hm hframe
    have hframed := hm₁.frame (hvalues frame rfl)
    cases hrun : ending n ((Statement.block ss).tree .returns)
        ⟨.record (Fields.set Name.parentField m₁.environment frame), m₁.printed⟩ with
    | mk o m₂ =>
      have hvalue := Action.bind_pure_apply (ending n ((Statement.block ss).tree .returns))
        Ending.value ⟨.record (Fields.set Name.parentField m₁.environment frame), m₁.printed⟩
      rw [hrun] at hvalue
      rw [Action.environment_bind, Action.inFrame_eq hvalue] at hbody
      cases hbody
      refine ⟨frame, m₁, o, m₂, bindAll_sound hE hes hm hframe (by simp), ?_, rfl, rfl⟩
      exact hS hss hframed hrun (ne_exhausted_of_map hr)
  · left
    exact ⟨f, bindAll_sound hE hes hm hframe (by simpa using hr), rfl⟩

/-- A call follows from the rules for its callee, its arguments and the body. -/
theorem call_sound {n : Nat} (hE : SoundExpressions blank empty n)
    (hS : SoundStatements blank empty n) {e : Expression} {es rest : List Expression}
    {m m' : Machine} {r : Except Fault Value} (he : e.disciplined blank = true)
    (hes : Expression.allDisciplined blank es = true)
    (hm : Name.Disciplined blank m.environment)
    (h : value (n + 1) (listTree .returns (.call e es :: rest)) m = (r, m'))
    (hr : r ≠ .error .exhausted) : Evaluates empty (.call e es) rest m r m' := by
  rw [value_call] at h
  obtain ⟨v, m₁, hv, hcall⟩ | ⟨f, hv, rfl⟩ := Action.bind_eq h
  · have hcallee : Evaluates empty e [] m (.ok v) m₁ := hE he hm hv (by simp)
    obtain ⟨hm₁, hdisciplined⟩ := value_result [] he hm hv
    cases hparts : Node.functionParts v with
    | error f =>
      rw [hparts] at hcall
      cases hcall
      exact .calleeFault hcallee hparts
    | ok parts =>
      rw [hparts] at hcall
      -- only here does the discipline of values matter: the body is one that the rules know
      obtain ⟨xs, ss, hxs, hss, hbody⟩ := hdisciplined v rfl _ _ hparts
      obtain rfl : parts = (_, _) := Prod.ext hxs hss
      obtain ⟨f, hbinds, rfl⟩ | ⟨frame, m₂, o, m₃, hbinds, hruns, rfl, rfl⟩ :=
        invoke_sound hE hS hbody hes hm₁ hcall hr
      · exact .argumentFault hcallee hparts hbinds
      · exact .call hcallee hparts hbinds hruns
  · exact .calleeFault (hE he hm hv (by simpa using hr)) rfl

/-- One more unit of budget, for an expression: every part is evaluated with the smaller budget. -/
theorem expression_sound {n : Nat} (hE : SoundExpressions blank empty n)
    (hS : SoundStatements blank empty n) : SoundExpressions blank empty (n + 1) := by
  intro e rest m m' r he hm h hr
  -- four forms have a value at once, the others evaluate their parts first
  cases e with
  | number v =>
    rw [value_number] at h
    cases h
    exact .number v rest m
  | boolean b =>
    rw [value_boolean] at h
    cases h
    exact .boolean b rest m
  | name x =>
    rw [value_name] at h
    obtain ⟨rfl, rfl⟩ := Prod.mk.inj h
    exact .name x rest m
  | function xs ss =>
    rw [value_function] at h
    cases h
    exact .function xs ss rest m
  | negate e =>
    rw [value_negate] at h
    -- what is done with the operand's value cannot touch the machine
    cases (Action.bind_lift_apply _ Value.negate m).symm.trans h
    exact .negate (hE he hm rfl (ne_exhausted_of_bind hr))
  | not e =>
    rw [value_not] at h
    cases (Action.bind_pure_apply _ Operation.invert m).symm.trans h
    exact .not (hE he hm rfl (ne_exhausted_of_map hr))
  | binary op e₁ e₂ =>
    rw [value_binary] at h
    simp only [Expression.disciplined, Bool.and_eq_true] at he
    obtain ⟨a, m₁, ha, hrest⟩ | ⟨f, ha, rfl⟩ := Action.bind_eq h
    -- the right operand is evaluated on the machine that the left one leaves
    · have hm₁ := (value_result [] he.1 hm ha).1
      cases (Action.bind_lift_apply _ (op.apply a) m₁).symm.trans hrest
      exact .binary (hE he.1 hm ha (by simp)) (hE he.2 hm₁ rfl (ne_exhausted_of_bind hr))
    · exact .leftFault (hE he.1 hm ha (by simpa using hr))
  | call e es =>
    simp only [Expression.disciplined, Bool.and_eq_true] at he
    exact call_sound hE hS he.1 he.2 hm h hr

/-- Printing a list of expressions follows from the rules, when evaluating with the same budget
does. -/
theorem printAll_sound {n : Nat} (hE : SoundExpressions blank empty n) :
    ∀ {es : List Expression} {m m' : Machine} {r : Except Fault Unit},
      Expression.allDisciplined blank es = true → Name.Disciplined blank m.environment →
      Node.printAll (evaluate .returns n) (Tree.members (listTree .returns es)) m = (r, m') →
      r ≠ .error .exhausted → Prints empty es m r m'
  | [], m, _, _, _, _, h, _ => by
    rw [printAll_nil] at h
    cases h
    exact .done m
  | e :: es, m, m', r, hes, hm, h, hr => by
    simp only [Expression.allDisciplined, Bool.and_eq_true] at hes
    rw [printAll_cons] at h
    obtain ⟨v, m₁, hv, hrest⟩ | ⟨f, hv, rfl⟩ := Action.bind_eq h
    · have hm₁ := (value_result es hes.1 hm hv).1
      have hfirst : Evaluates empty e es m (.ok v) m₁ := hE hes.1 hm hv (by simp)
      -- a value may fail to have a text, and then nothing of it is printed
      cases htext : v.print with
      | error f =>
        rw [htext] at hrest
        cases hrest
        exact .fault hfirst htext
      | ok text =>
        rw [htext] at hrest
        exact .next hfirst htext (printAll_sound hE hes.2 hm₁ hrest hr)
    · exact .fault (hE hes.1 hm hv (by simpa using hr)) rfl

/-- A loop that runs for some rounds follows from the rules for its parts. -/
theorem cycle_sound {n : Nat} (hE : SoundExpressions blank empty n)
    (hS : SoundStatements blank empty n) {c : Expression} {s : Statement}
    (hc : c.disciplined blank = true) (hs : s.disciplined blank = true) :
    ∀ {k : Nat} {m m' : Machine} {o : Except Fault Ending}, Name.Disciplined blank m.environment →
      cycle (value n (c.tree .returns)) (ending n (s.tree .returns)) k m = (o, m') →
      o ≠ .error .exhausted → Executes empty (.loop c s) m o m'
  | 0, _, _, _, _, h, ho => by
    -- no rounds left: the run is exhausted, which is excluded
    cases h
    exact absurd rfl ho
  | k + 1, m, m', o, hm, h, ho => by
    rw [cycle] at h
    obtain ⟨v, m₁, hv, hround⟩ | ⟨f, hv, rfl⟩ := Action.bind_eq h
    · have hm₁ := (value_result [] hc hm hv).1
      have hcondition : Evaluates empty c [] m (.ok v) m₁ := hE hc hm hv (by simp)
      cases htruthy : v.truthy with
      | false =>
        simp only [htruthy, Bool.false_eq_true, if_false] at hround
        cases hround
        exact .loopDone hcondition htruthy
      | true =>
        simp only [htruthy, if_true] at hround
        obtain ⟨done, m₂, hdone, hrest⟩ | ⟨f, hfails, rfl⟩ := Action.bind_eq hround
        · have hbody := hS hs hm₁ hdone (by simp)
          -- a round that ends normally is followed by another one, which the induction hypothesis
          -- covers
          cases done with
          | normal =>
            exact .loopNext hcondition htruthy hbody
              (cycle_sound hE hS hc hs (ending_result hs hm₁ hdone) hrest ho)
          | returned w =>
            cases hrest
            exact .loopStop hcondition htruthy hbody (by simp)
        · exact .loopStop hcondition htruthy (hS hs hm₁ hfails (by simpa using ho)) (by simp)
    · exact .loopFault (hE hc hm hv (by simpa using ho))

/-- A statement alone is a sequence of one. -/
theorem Executes.all {s : Statement} {m m' : Machine} {o : Except Fault Ending}
    (h : Executes empty s m o m') : ExecutesAll empty [s] m o m' := by
  by_cases ho : o = .ok .normal
  · subst ho
    exact .next h (.done m')
  · exact .stop h ho

/-- A block follows from the rules for its statements. -/
theorem block_sound {n : Nat} (hS : SoundStatements blank empty n)
    (hempty : blank = true → empty = .error (.missingField "statement"))
    {ss : List Statement} {m m' : Machine} {o : Except Fault Ending}
    (hss : (Statement.block ss).disciplined blank = true)
    (hm : Name.Disciplined blank m.environment)
    (h : ending (n + 1) ((Statement.block ss).tree .returns) m = (o, m'))
    (ho : o ≠ .error .exhausted) : Executes empty (.block ss) m o m' := by
  match ss with
  | [] =>
    -- only in a blank discipline is an empty block allowed, and there it is a fault
    have hblank : blank = true := by
      simpa [Statement.disciplined, Statement.allDisciplined] using hss
    rw [Statement.tree, Statement.trees, ending_block_nil] at h
    cases h
    rw [← hempty hblank]
    exact .emptyBlock m
  | [s] =>
    simp only [Statement.disciplined, Statement.allDisciplined, Bool.and_eq_true] at hss
    rw [Statement.tree, Statement.trees, Statement.trees, ending_block_one] at h
    exact .block (Executes.all (hS hss.2.1 hm h ho))
  | s :: u :: ss =>
    simp only [Statement.disciplined, Statement.allDisciplined, Bool.and_eq_true] at hss
    obtain ⟨-, hs, hu, hss⟩ := hss
    have hrest : (Statement.block (u :: ss)).disciplined blank = true := by
      simp [Statement.disciplined, Statement.allDisciplined, hu, hss]
    -- the evaluator runs the rest as a block of its own, the rules as the rest of a list
    rw [Statement.tree, Statement.trees, Statement.trees, ending_block_cons] at h
    obtain ⟨first, m₁, hfirst, hnext⟩ | ⟨f, hfails, rfl⟩ := Action.bind_eq h
    · have hexecutes := hS hs hm hfirst (by simp)
      cases first with
      | normal =>
        cases hS hrest (ending_result hs hm hfirst) hnext ho with
        | block hall => exact .block (.next hexecutes hall)
      | returned v =>
        cases hnext
        exact .block (.stop hexecutes (by simp))
    · exact .block (.stop (hS hs hm hfails (by simpa using ho)) (by simp))

/-- A branch follows from the rules for its condition and for the statement that the value
chooses. -/
theorem branch_sound {n : Nat} (hE : SoundExpressions blank empty n)
    (hS : SoundStatements blank empty n) {c : Expression} {s : Statement} {a : Option Statement}
    {m m' : Machine} {o : Except Fault Ending}
    (hbranch : (Statement.branch c s a).disciplined blank = true)
    (hm : Name.Disciplined blank m.environment)
    (h : ending (n + 1) ((Statement.branch c s a).tree .returns) m = (o, m'))
    (ho : o ≠ .error .exhausted) : Executes empty (.branch c s a) m o m' := by
  obtain ⟨hc, hs, ha⟩ := Statement.disciplined_branch.1 hbranch
  rw [ending_branch] at h
  obtain ⟨v, m₁, hv, htaken⟩ | ⟨f, hv, rfl⟩ := Action.bind_eq h
  · have hm₁ := (value_result [] hc hm hv).1
    have hcondition : Evaluates empty c [] m (.ok v) m₁ := hE hc hm hv (by simp)
    cases htruthy : v.truthy with
    | true =>
      simp only [htruthy, if_true] at htaken
      exact .branchTrue hcondition htruthy (hS hs hm₁ htaken ho)
    | false =>
      simp only [htruthy, Bool.false_eq_true, if_false] at htaken
      cases a with
      | none =>
        cases htaken
        exact .branchNone hcondition htruthy
      | some a => exact .branchFalse hcondition htruthy (hS (ha a rfl) hm₁ htaken ho)
  · exact .branchFault (hE hc hm hv (by simpa using ho))

/-- One more unit of budget, for a statement. A statement that is an expression is evaluated with
the larger budget itself, hence the hypothesis `hE'`. -/
theorem statement_sound {n : Nat}
    (hempty : blank = true → empty = .error (.missingField "statement"))
    (hE : SoundExpressions blank empty n) (hE' : SoundExpressions blank empty (n + 1))
    (hS : SoundStatements blank empty n) : SoundStatements blank empty (n + 1) := by
  intro s m m' o hs hm h ho
  match s with
  | .block ss => exact block_sound hS hempty hs hm h ho
  | .branch c s a => exact branch_sound hE hS hs hm h ho
  | .loop c s =>
    simp only [Statement.disciplined, Bool.and_eq_true] at hs
    rw [Statement.tree, ending_loop] at h
    exact cycle_sound hE hS hs.1 hs.2 hm h ho
  | .giveBack none =>
    -- the evaluator spends budget on the missing value
    rw [Statement.tree, ending_giveBack_none] at h
    cases n with
    | zero =>
      cases h
      exact absurd rfl ho
    | succ n =>
      cases h
      exact .giveBackNone m
  | .giveBack (some e) =>
    rw [Statement.tree, ending_giveBack_some] at h
    cases (Action.bind_pure_apply _ Ending.returned m).symm.trans h
    exact .giveBackSome (hE hs hm rfl (ne_exhausted_of_map ho))
  | .print es =>
    -- printing and assigning end normally whenever they end without a fault
    have hprint := (congrFun (ending_output n es) m).symm.trans h
    cases (Action.bind_pure_apply _ (fun _ => Ending.normal) m).symm.trans hprint
    exact .print (printAll_sound hE hs hm rfl (ne_exhausted_of_map ho))
  | .assign x e =>
    rw [ending_assign] at h
    obtain ⟨v, m₁, hv, hassign⟩ | ⟨f, hv, rfl⟩ := Action.bind_eq h
    · cases (Action.bind_pure_apply _ (fun _ => Ending.normal) m₁).symm.trans hassign
      exact .assign (hE hs hm hv (by simp)) rfl
    · exact .assignFault (hE hs hm hv (by simpa using ho))
  | .expression e =>
    simp only [Statement.disciplined, Bool.and_eq_true, Bool.not_eq_true'] at hs
    rw [Statement.tree, ending_expression n hs.1] at h
    cases (Action.bind_pure_apply _ (fun _ => Ending.normal) m).symm.trans h
    exact .expression (hE' hs.2 hm rfl (ne_exhausted_of_map ho))

/-- **What the evaluator does follows from the rules**, whatever the budget. -/
theorem sound (hempty : blank = true → empty = .error (.missingField "statement")) :
    ∀ n : Nat, SoundExpressions blank empty n ∧ SoundStatements blank empty n
  | 0 => by
    constructor
    · intro e rest m m' r _ _ h hr
      cases h
      exact absurd rfl hr
    · intro s m m' o _ _ h ho
      cases h
      exact absurd rfl ho
  | n + 1 =>
    have ⟨hE, hS⟩ := sound hempty n
    have hE' : SoundExpressions blank empty (n + 1) := expression_sound hE hS
    ⟨hE', statement_sound hempty hE hE' hS⟩

/-! ## What follows from the rules the evaluator does -/

open Stepwise.Action (Growing Reaches)

theorem ending_growing (t : Tree) : Growing fun n => ending n t :=
  .bind (eval_growing t) fun _ => .const _

theorem printAll_growing (es : List Expression) :
    Growing fun n => Node.printAll (evaluate .returns n) (Tree.members (listTree .returns es)) :=
  fun _ _ h => Node.printAll_extends (evaluate_extends .returns h) _

theorem printRest_growing (v : Value) (es : List Expression) : Growing fun n => (do
    Action.print ((← v.print) ++ " ")
    Node.printAll (evaluate .returns n) (Tree.members (listTree .returns es))) :=
  .bind (.const _) fun _ => .bind (.const _) fun _ => printAll_growing es

theorem value_reaches_succ {t : Tree} {m m' : Machine} {r : Except Fault Value}
    (h : Reaches (fun n => value (n + 1) t) m r m') : Reaches (fun n => value n t) m r m' :=
  (Reaches.succ_iff (value_growing t)).2 h

theorem ending_reaches_succ {t : Tree} {m m' : Machine} {o : Except Fault Ending}
    (h : Reaches (fun n => ending (n + 1) t) m o m') : Reaches (fun n => ending n t) m o m' :=
  (Reaches.succ_iff (ending_growing t)).2 h

/-- What follows a part that has ended grows with the budget. -/
theorem match_growing (o : Ending) (t : Tree) :
    Growing fun n => (match o with
      | .normal => ending n t
      | .returned v => pure (.returned v) : Action Ending) := by
  cases o with
  | normal => exact ending_growing t
  | returned v => exact .const _

/-- What a condition chooses grows with the budget. -/
theorem branch_growing (v : Value) (s : Statement) (a : Option Statement) :
    Growing fun n => if v.truthy then ending n (s.tree .returns) else otherwise n a := by
  cases a with
  | none => exact .ite (ending_growing _) (.const _)
  | some a => exact .ite (ending_growing _) (ending_growing _)

theorem round_growing (v : Value) (c t : Tree) : Growing fun n => (do
    if v.truthy then
      match ← ending n t with
      | .normal => ending n (Tree.loop .returns c t)
      | .returned w => return .returned w
    else return .normal) :=
  .ite (.bind (ending_growing t) fun o => match_growing o _) (.const _)

/-- What is reached from a disciplined environment is disciplined. -/
theorem disciplined_of_reaches {e : Expression} {rest : List Expression} {m m' : Machine}
    {r : Except Fault Value} (h : Reaches (fun n => value n (listTree .returns (e :: rest))) m r m')
    (he : e.disciplined blank = true) (hm : Name.Disciplined blank m.environment) :
    Name.Disciplined blank m'.environment ∧ Yields (Value.Disciplined blank) r := by
  obtain ⟨-, n, hn⟩ := h
  exact value_result rest he hm hn

theorem disciplined_of_ending {s : Statement} {m m' : Machine} {o : Except Fault Ending}
    (h : Reaches (fun n => ending n (s.tree .returns)) m o m') (hs : s.disciplined blank = true)
    (hm : Name.Disciplined blank m.environment) : Name.Disciplined blank m'.environment := by
  obtain ⟨-, n, hn⟩ := h
  exact ending_result hs hm hn

/-- A part that does not end normally ends what it stands in. -/
theorem stop_reaches {t next : Tree} {m m' : Machine} {o : Except Fault Ending}
    (h : Reaches (fun n => ending n t) m o m') (ho : o ≠ .ok .normal) :
    Reaches (fun n => (do
      match ← ending n t with
      | .normal => ending n next
      | .returned v => return .returned v)) m o m' := by
  cases o with
  | error f => exact h.bind_of_error
  | ok ended =>
    cases ended with
    | normal => exact absurd rfl ho
    | returned v =>
      refine (Reaches.bind_of_ok h (ending_growing t) ?_).2 (Reaches.pure_iff.2 ⟨rfl, rfl⟩)
      exact match_growing (.returned v) next

/-- The body of a disciplined function, read off its value. -/
theorem body_disciplined {v : Value} {xs : List Identifier} {ss : List Statement}
    (hv : v.Disciplined blank) (hparts : Node.functionParts v =
      .ok (Identifier.listTree .returns xs, (Statement.block ss).tree .returns)) :
    (Statement.block ss).disciplined blank = true := by
  obtain ⟨xs', ss', -, htree, hss'⟩ := hv _ _ hparts
  rw [Statement.tree_injective htree]
  exact hss'

/-- The frame of a call with bound arguments is disciplined. -/
theorem frame_disciplined {xs : List Identifier} {es : List Expression} {m m' : Machine}
    {frame : Fields} (h : Reaches (fun n => bindAll n [] xs es) m (.ok frame) m')
    (hes : Expression.allDisciplined blank es = true)
    (hm : Name.Disciplined blank m.environment) :
    Name.Disciplined blank (.record (Fields.set Name.parentField m'.environment frame)) := by
  obtain ⟨-, n, hn⟩ := h
  obtain ⟨hm', hframe⟩ :=
    (bindAll_upholds (upholds blank n).1 [] xs es hes nofun).result hm hn
  exact hm'.frame (hframe frame rfl)

/-- A branch whose condition has a value, with what the value chooses. -/
theorem branch_reaches {c : Expression} {s : Statement} {a : Option Statement}
    {m m₁ m' : Machine} {v : Value} {o : Except Fault Ending}
    (hc : Reaches (fun n => value n (c.tree .returns)) m (.ok v) m₁)
    (h : Reaches (fun n => if v.truthy then ending n (s.tree .returns) else otherwise n a)
      m₁ o m') :
    Reaches (fun n => ending n ((Statement.branch c s a).tree .returns)) m o m' := by
  refine ending_reaches_succ ?_
  simp only [ending_branch]
  exact (Reaches.bind_of_ok hc (value_growing _) (branch_growing v s a)).2 h

/-- A loop whose condition holds, with its body and what follows the body. -/
theorem round_reaches {c t : Tree} {m m₁ m' : Machine} {v : Value} {o : Except Fault Ending}
    (hc : Reaches (fun n => value n c) m (.ok v) m₁) (htruthy : v.truthy = true)
    (h : Reaches (fun n => (do
      match ← ending n t with
      | .normal => ending n (Tree.loop .returns c t)
      | .returned w => return .returned w)) m₁ o m') :
    Reaches (fun n => ending n (Tree.loop .returns c t)) m o m' := by
  refine ending_loop_reaches.2 ?_
  refine (Reaches.bind_of_ok hc (value_growing _) (round_growing v c t)).2 ?_
  simp only [htruthy, if_true]
  exact h

/-- A part that ends normally hands on to what stands behind it. -/
theorem next_reaches {t next : Tree} {m m₁ m' : Machine} {o : Except Fault Ending}
    (h : Reaches (fun n => ending n t) m (.ok .normal) m₁)
    (hnext : Reaches (fun n => ending n next) m₁ o m') :
    Reaches (fun n => (do
      match ← ending n t with
      | .normal => ending n next
      | .returned v => return .returned v)) m o m' :=
  (Reaches.bind_of_ok h (ending_growing t) (match_growing .normal next)).2 hnext

/-- A call whose callee has a value, with what becomes of the value. -/
theorem call_reaches {e : Expression} {es rest : List Expression} {m m₁ m' : Machine} {v : Value}
    {x : Nat → Action Value} {r : Except Fault Value}
    (he : Reaches (fun n => value n (e.tree .returns)) m (.ok v) m₁)
    (hx : ∀ n, (do
      let parts ← (Node.functionParts v : Except Fault (Value × Tree))
      invoke n parts.1 parts.2 (listTree .returns es)) = x n)
    (hgrowing : Growing x) (h : Reaches x m₁ r m') :
    Reaches (fun n => value n (listTree .returns (.call e es :: rest))) m r m' := by
  obtain rfl : _ = x := funext hx
  refine value_reaches_succ ?_
  simp only [value_call]
  exact (Reaches.bind_of_ok he (value_growing _) hgrowing).2 h

/-- A call of a function whose parts are known. -/
theorem invoke_reaches {e : Expression} {es rest : List Expression} {m m₁ m' : Machine}
    {v : Value} {xs : List Identifier} {ss : List Statement} {r : Except Fault Value}
    (he : Reaches (fun n => value n (e.tree .returns)) m (.ok v) m₁)
    (hparts : Node.functionParts v =
      .ok (Identifier.listTree .returns xs, (Statement.block ss).tree .returns))
    (h : Reaches (fun n => (do
      let frame ← bindAll n [] xs es
      let caller ← Action.environment
      Action.inFrame (.record (Fields.set Name.parentField caller frame))
        (do return (← ending n ((Statement.block ss).tree .returns)).value))) m₁ r m') :
    Reaches (fun n => value n (listTree .returns (.call e es :: rest))) m r m' := by
  refine call_reaches he (fun n => ?_) ?_ h
  · rw [hparts, ← invoke_listTree]
    rfl
  · refine .bind (bindAll_growing [] xs es) fun frame => .bind (.const _) fun caller => ?_
    exact .inFrame _ (.bind (ending_growing _) fun _ => .const _)

/-- A function body that has ended in its frame. -/
theorem frame_reaches {frame : Fields} {t : Tree} {m m' : Machine} {o : Except Fault Ending}
    (h : Reaches (fun n => ending n t)
      ⟨.record (Fields.set Name.parentField m.environment frame), m.printed⟩ o m') :
    Reaches (fun n => (do
      let caller ← Action.environment
      Action.inFrame (.record (Fields.set Name.parentField caller frame))
        (do return (← ending n t).value))) m (o.map Ending.value) ⟨m.environment, m'.printed⟩ := by
  obtain ⟨hr, n, hn⟩ := Reaches.map_iff.2 ⟨o, h, rfl⟩
  exact ⟨hr, n, Action.inFrame_eq hn⟩

mutual

/-- What the rules say about an expression, the evaluator reaches with enough budget. The induction
is on the derivation: one case for each rule, in which the parts are reached by hypothesis and put
together by `Reaches.bind_of_ok`. -/
theorem Evaluates.reaches (hempty : blank = true → empty = .error (.missingField "statement")) :
    ∀ {e : Expression} {rest : List Expression} {m m' : Machine}
    {r : Except Fault Value}, Evaluates empty e rest m r m' → e.disciplined blank = true →
    Name.Disciplined blank m.environment → r ≠ .error .exhausted →
    Reaches (fun n => value n (listTree .returns (e :: rest))) m r m'
  | _, _, _, _, _, .number v rest m, _, _, _ => by
    refine value_reaches_succ ?_
    simp only [value_number]
    exact Reaches.pure_iff.2 ⟨rfl, rfl⟩
  | _, _, _, _, _, .boolean b rest m, _, _, hr => by
    refine value_reaches_succ ?_
    simp only [value_boolean]
    exact Reaches.const_iff.2 ⟨hr, rfl⟩
  | _, _, _, _, _, .name x rest m, _, _, hr => by
    refine value_reaches_succ ?_
    simp only [value_name]
    exact Reaches.const_iff.2 ⟨hr, rfl⟩
  | _, _, _, _, _, .function xs ss rest m, _, _, _ => by
    refine value_reaches_succ ?_
    simp only [value_function]
    exact Reaches.pure_iff.2 ⟨rfl, rfl⟩
  | _, _, _, _, _, .negate h, he, hm, hr => by
    refine value_reaches_succ ?_
    simp only [value_negate]
    exact (h.reaches hempty he hm (ne_exhausted_of_bind hr)).lift hr
  | _, _, _, _, _, .not h, he, hm, hr => by
    refine value_reaches_succ ?_
    simp only [value_not]
    exact Reaches.map_iff.2 ⟨_, h.reaches hempty he hm (ne_exhausted_of_map hr), rfl⟩
  | _, _, _, _, _, .binary h₁ h₂, he, hm, hr => by
    simp only [Expression.disciplined, Bool.and_eq_true] at he
    -- the right operand starts on the machine that the left one leaves, which is disciplined too
    have hleft := h₁.reaches hempty he.1 hm (by simp)
    have hm₁ := (disciplined_of_reaches hleft he.1 hm).1
    refine value_reaches_succ ?_
    simp only [value_binary]
    refine (Reaches.bind_of_ok hleft (value_growing _) ?_).2 ?_
    · exact .bind (value_growing _) fun b => .const (liftM (Operator.apply _ _ b))
    · exact (h₂.reaches hempty he.2 hm₁ (ne_exhausted_of_bind hr)).lift hr
  | _, _, _, _, _, .leftFault h, he, hm, hr => by
    simp only [Expression.disciplined, Bool.and_eq_true] at he
    refine value_reaches_succ ?_
    simp only [value_binary]
    exact (h.reaches hempty he.1 hm (by simpa using hr)).bind_of_error
  | _, _, _, _, _, .calleeFault (r := r) h hf, he, hm, hr => by
    simp only [Expression.disciplined, Bool.and_eq_true] at he
    have ih := h.reaches hempty he.1 hm
    cases r with
    | ok v =>
      -- what is called is no function
      have hparts : Node.functionParts v = .error _ := hf
      refine call_reaches (ih (by simp)) (fun n => ?_) (.const (throw _))
        (Reaches.const_iff.2 ⟨hr, rfl⟩)
      rw [hparts]
      rfl
    | error f =>
      cases hf
      refine value_reaches_succ ?_
      simp only [value_call]
      exact (ih (by simpa using hr)).bind_of_error
  | _, _, _, _, _, .argumentFault h hparts hbinds, he, hm, hr => by
    simp only [Expression.disciplined, Bool.and_eq_true] at he
    have hcallee := h.reaches hempty he.1 hm (by simp)
    have hm₁ := (disciplined_of_reaches hcallee he.1 hm).1
    -- binding fails before the body, and the body need not be known to be disciplined
    have hfails := hbinds.reaches hempty he.2 hm₁ (by simpa using hr)
    exact invoke_reaches hcallee hparts hfails.bind_of_error
  | _, _, _, _, _, .call h hparts hbinds hbody, he, hm, hr => by
    simp only [Expression.disciplined, Bool.and_eq_true] at he
    have hcallee := h.reaches hempty he.1 hm (by simp)
    -- the callee's value carries the discipline of its body, the bound arguments that of its frame
    obtain ⟨hm₁, hv⟩ := disciplined_of_reaches hcallee he.1 hm
    have hss := body_disciplined (hv _ rfl) hparts
    have hbound := hbinds.reaches hempty he.2 hm₁ (by simp)
    have hframed := frame_disciplined hbound he.2 hm₁
    refine invoke_reaches hcallee hparts ?_
    refine (Reaches.bind_of_ok hbound (bindAll_growing _ _ _) ?_).2 ?_
    · refine .bind (.const _) fun caller => .inFrame _ ?_
      exact .bind (ending_growing _) fun _ => .const _
    · exact frame_reaches (hbody.reaches hempty hss hframed (ne_exhausted_of_map hr))

/-- What the rules say about binding arguments, the evaluator reaches. -/
theorem Binds.reaches (hempty : blank = true → empty = .error (.missingField "statement")) :
    ∀ {frame : Fields} {xs : List Identifier} {es : List Expression}
    {m m' : Machine} {r : Except Fault Fields}, Binds empty frame xs es m r m' →
    Expression.allDisciplined blank es = true → Name.Disciplined blank m.environment →
    r ≠ .error .exhausted → Reaches (fun n => bindAll n frame xs es) m r m'
  | _, _, _, _, _, _, .done frame m, _, _, _ => Reaches.pure_iff.2 ⟨rfl, rfl⟩
  | _, _, _, _, _, _, .tooMany frame e es m, _, _, hr => Reaches.const_iff.2 ⟨hr, rfl⟩
  | _, _, _, _, _, _, .tooFew frame x xs m, _, _, hr => Reaches.const_iff.2 ⟨hr, rfl⟩
  | _, _, _, _, _, _, .fault h, hes, hm, hr => by
    simp only [Expression.allDisciplined, Bool.and_eq_true] at hes
    exact (h.reaches hempty hes.1 hm (by simpa using hr)).bind_of_error
  | _, _, _, _, _, _, .next h hrest, hes, hm, hr => by
    simp only [Expression.allDisciplined, Bool.and_eq_true] at hes
    have hfirst := h.reaches hempty hes.1 hm (by simp)
    have hm₁ := (disciplined_of_reaches hfirst hes.1 hm).1
    exact (Reaches.bind_of_ok hfirst (value_growing _) (bindAll_growing _ _ _)).2
      (hrest.reaches hempty hes.2 hm₁ hr)

/-- What the rules say about printing, the evaluator reaches. -/
theorem Prints.reaches (hempty : blank = true → empty = .error (.missingField "statement")) :
    ∀ {es : List Expression} {m m' : Machine} {r : Except Fault Unit},
    Prints empty es m r m' → Expression.allDisciplined blank es = true →
    Name.Disciplined blank m.environment → r ≠ .error .exhausted →
    Reaches (fun n => Node.printAll (evaluate .returns n) (Tree.members (listTree .returns es)))
      m r m'
  | _, _, _, _, .done m, _, _, hr => Reaches.const_iff.2 ⟨hr, rfl⟩
  | _, _, _, _, .fault (r := r) h hf, hes, hm, hr => by
    simp only [Expression.allDisciplined, Bool.and_eq_true] at hes
    have ih := h.reaches hempty hes.1 hm
    simp only [printAll_cons]
    cases r with
    | ok v =>
      -- the value has no text
      have htext : v.print = .error _ := hf
      refine (Reaches.bind_of_ok (ih (by simp)) (value_growing _)
        (printRest_growing v _)).2 ?_
      exact ⟨hr, 0, by rw [htext]; rfl⟩
    | error f =>
      cases hf
      exact (ih (by simpa using hr)).bind_of_error
  | _, _, _, _, .next h htext hrest, hes, hm, hr => by
    simp only [Expression.allDisciplined, Bool.and_eq_true] at hes
    have hfirst := h.reaches hempty hes.1 hm (by simp)
    have hm₁ := (disciplined_of_reaches hfirst hes.1 hm).1
    obtain ⟨-, n, hn⟩ := hrest.reaches hempty hes.2 hm₁ hr
    simp only [printAll_cons]
    refine (Reaches.bind_of_ok hfirst (value_growing _) (printRest_growing _ _)).2 ⟨hr, n, ?_⟩
    rw [htext]
    exact hn

/-- What the rules say about a statement, the evaluator reaches with enough budget. The induction is
on the derivation, as for expressions; the rest of a loop is a derivation of its own. -/
theorem Executes.reaches (hempty : blank = true → empty = .error (.missingField "statement")) :
    ∀ {s : Statement} {m m' : Machine} {o : Except Fault Ending},
    Executes empty s m o m' → s.disciplined blank = true →
    Name.Disciplined blank m.environment → o ≠ .error .exhausted →
    Reaches (fun n => ending n (s.tree .returns)) m o m'
  | _, _, _, _, .emptyBlock m, hs, _, ho => by
    -- the discipline allows an empty block only when it is blank, and `hempty` then gives the fault
    have hblank : blank = true := by
      simpa [Statement.disciplined, Statement.allDisciplined] using hs
    refine ending_reaches_succ ?_
    simp only [Statement.tree, Statement.trees, ending_block_nil, hempty hblank]
    exact Reaches.const_iff.2 ⟨by simp, rfl⟩
  | _, _, _, _, .block hall, hs, hm, ho => by
    simp only [Statement.disciplined, Bool.and_eq_true] at hs
    exact hall.reaches hempty (List.cons_ne_nil _ _) hs.2 hm ho
  | _, _, _, _, .branchFault h, hs, hm, ho => by
    obtain ⟨hc, -, -⟩ := Statement.disciplined_branch.1 hs
    refine ending_reaches_succ ?_
    simp only [ending_branch]
    exact (h.reaches hempty hc hm (by simpa using ho)).bind_of_error
  | _, _, _, _, .branchTrue h htruthy hbody, hs, hm, ho => by
    obtain ⟨hc, hs, -⟩ := Statement.disciplined_branch.1 hs
    have hcondition := h.reaches hempty hc hm (by simp)
    have hm₁ := (disciplined_of_reaches hcondition hc hm).1
    -- the condition's value decides which of the two statements is reached
    refine branch_reaches hcondition ?_
    simp only [htruthy, if_true]
    exact hbody.reaches hempty hs hm₁ ho
  | _, _, _, _, .branchFalse h htruthy hbody, hs, hm, ho => by
    obtain ⟨hc, -, ha⟩ := Statement.disciplined_branch.1 hs
    have hcondition := h.reaches hempty hc hm (by simp)
    have hm₁ := (disciplined_of_reaches hcondition hc hm).1
    refine branch_reaches hcondition ?_
    simp only [htruthy, Bool.false_eq_true, if_false]
    exact hbody.reaches hempty (ha _ rfl) hm₁ ho
  | _, _, _, _, .branchNone h htruthy, hs, hm, ho => by
    obtain ⟨hc, -, -⟩ := Statement.disciplined_branch.1 hs
    refine branch_reaches (h.reaches hempty hc hm (by simp)) ?_
    simp only [htruthy, Bool.false_eq_true, if_false]
    exact Reaches.pure_iff.2 ⟨rfl, rfl⟩
  | _, _, _, _, .loopFault h, hs, hm, ho => by
    simp only [Statement.disciplined, Bool.and_eq_true] at hs
    refine ending_loop_reaches.2 ?_
    exact (h.reaches hempty hs.1 hm (by simpa using ho)).bind_of_error
  | _, _, _, _, .loopDone h htruthy, hs, hm, ho => by
    simp only [Statement.disciplined, Bool.and_eq_true] at hs
    refine ending_loop_reaches.2 ((Reaches.bind_of_ok (h.reaches hempty hs.1 hm (by simp))
      (value_growing _) (round_growing _ _ _)).2 ?_)
    simp only [htruthy, Bool.false_eq_true, if_false]
    exact Reaches.pure_iff.2 ⟨rfl, rfl⟩
  | _, _, _, _, .loopStop (o := o) h htruthy hbody hne, hs, hm, ho => by
    simp only [Statement.disciplined, Bool.and_eq_true] at hs
    have hcondition := h.reaches hempty hs.1 hm (by simp)
    have hm₁ := (disciplined_of_reaches hcondition hs.1 hm).1
    have hstops := hbody.reaches hempty hs.2 hm₁ ho
    exact round_reaches hcondition htruthy (stop_reaches hstops hne)
  | _, _, _, _, .loopNext h htruthy hbody hrest, hs, hm, ho => by
    -- the same loop runs again, on the machine that the body leaves
    have hloop := hs
    simp only [Statement.disciplined, Bool.and_eq_true] at hs
    have hcondition := h.reaches hempty hs.1 hm (by simp)
    have hm₁ := (disciplined_of_reaches hcondition hs.1 hm).1
    have hnormal := hbody.reaches hempty hs.2 hm₁ (by simp)
    have hm₂ := disciplined_of_ending hnormal hs.2 hm₁
    have hagain := hrest.reaches hempty hloop hm₂ ho
    exact round_reaches hcondition htruthy (next_reaches hnormal hagain)
  | _, _, _, _, .giveBackNone m, _, _, _ => by
    refine ending_reaches_succ ?_
    simp only [Statement.tree, ending_giveBack_none]
    -- the evaluator spends one unit on the missing value
    exact ⟨by simp, 1, rfl⟩
  | _, _, _, _, .giveBackSome h, hs, hm, ho => by
    refine ending_reaches_succ ?_
    simp only [Statement.tree, ending_giveBack_some]
    exact Reaches.map_iff.2 ⟨_, h.reaches hempty hs hm (ne_exhausted_of_map ho), rfl⟩
  | _, _, _, _, .print h, hs, hm, ho => by
    refine ending_reaches_succ ?_
    have hprints := h.reaches hempty hs hm (ne_exhausted_of_map ho)
    obtain ⟨hr, n, hn⟩ := Reaches.map_iff (g := fun _ => Ending.normal).2 ⟨_, hprints, rfl⟩
    exact ⟨hr, n, (congrFun (ending_output n _) _).trans hn⟩
  | _, _, _, _, .assign h hassign, hs, hm, ho => by
    refine ending_reaches_succ ?_
    simp only [ending_assign]
    refine (Reaches.bind_of_ok (h.reaches hempty hs hm (by simp)) (value_growing _) ?_).2 ?_
    · exact .const _
    · exact Reaches.map_iff.2 ⟨_, Reaches.const_iff.2 ⟨ne_exhausted_of_map ho, hassign⟩, rfl⟩
  | _, _, _, _, .assignFault h, hs, hm, ho => by
    refine ending_reaches_succ ?_
    simp only [ending_assign]
    exact (h.reaches hempty hs hm (by simpa using ho)).bind_of_error
  | _, _, _, _, .expression h, hs, hm, ho => by
    simp only [Statement.disciplined, Bool.and_eq_true, Bool.not_eq_true'] at hs
    refine ending_reaches_succ ?_
    simp only [Statement.tree, ending_expression _ hs.1]
    -- a statement that is an expression takes no budget of its own
    have hvalue := h.reaches hempty hs.2 hm (ne_exhausted_of_map ho)
    exact Reaches.map_iff.2 ⟨_, (Reaches.succ_iff (value_growing _)).1 hvalue, rfl⟩

/-- What the rules say about a sequence, the evaluator reaches. It runs the rest of a sequence as a
block of its own, and the last statement without one. -/
theorem ExecutesAll.reaches (hempty : blank = true → empty = .error (.missingField "statement")) :
    ∀ {ss : List Statement} {m m' : Machine} {o : Except Fault Ending},
    ExecutesAll empty ss m o m' → ss ≠ [] → Statement.allDisciplined blank ss = true →
    Name.Disciplined blank m.environment → o ≠ .error .exhausted →
    Reaches (fun n => ending n (Tree.block (Statement.trees .returns ss))) m o m'
  | _, _, _, _, .done m, hne, _, _, _ => absurd rfl hne
  | _, _, _, _, @ExecutesAll.stop _ _ ss _ _ _ h hne, _, hss, hm, ho => by
    simp only [Statement.allDisciplined, Bool.and_eq_true] at hss
    have hstops := h.reaches hempty hss.1 hm ho
    refine ending_reaches_succ ?_
    cases ss with
    | nil =>
      simp only [Statement.trees, ending_block_one]
      exact hstops
    | cons u us =>
      simp only [Statement.trees, ending_block_cons]
      exact stop_reaches hstops hne
  | _, _, _, _, @ExecutesAll.next _ _ ss _ _ _ _ h hrest, _, hss, hm, ho => by
    simp only [Statement.allDisciplined, Bool.and_eq_true] at hss
    have hnormal := h.reaches hempty hss.1 hm (by simp)
    have hm₁ := disciplined_of_ending hnormal hss.1 hm
    have ih := fun hne => hrest.reaches hempty hne hss.2 hm₁ ho
    refine ending_reaches_succ ?_
    -- behind the last statement there is nothing to run, and the rules for the empty rest say so
    cases ss with
    | nil =>
      cases hrest
      simp only [Statement.trees, ending_block_one]
      exact hnormal
    | cons u us =>
      simp only [Statement.trees, ending_block_cons]
      exact next_reaches hnormal (ih (List.cons_ne_nil _ _))

end

/-! ## Agreement -/

/-- **The evaluator ends a disciplined statement as the rules say**, with the same machine. -/
theorem executes_iff (hempty : blank = true → empty = .error (.missingField "statement"))
    {s : Statement} {m m' : Machine} {o : Except Fault Ending} (hs : s.disciplined blank = true)
    (hm : Name.Disciplined blank m.environment) (ho : o ≠ .error .exhausted) :
    Executes empty s m o m' ↔
      ∃ r, Completes (s.tree .returns) m r m' ∧ o = r.map Completion.ending := by
  constructor
  · intro h
    exact Reaches.map_iff.1 (h.reaches hempty hs hm ho)
  · intro h
    obtain ⟨-, n, hn⟩ := Reaches.map_iff.2 h
    exact (sound hempty n).2 hs hm hn ho

/-- The same for the values of expressions. -/
theorem evaluates_iff (hempty : blank = true → empty = .error (.missingField "statement"))
    {e : Expression} {m m' : Machine} {r : Except Fault Value} (he : e.disciplined blank = true)
    (hm : Name.Disciplined blank m.environment) (hr : r ≠ .error .exhausted) :
    Evaluates empty e [] m r m' ↔
      ∃ r₀, Completes (e.tree .returns) m r₀ m' ∧ r = r₀.map Completion.value := by
  constructor
  · intro h
    exact Reaches.map_iff.1 (h.reaches hempty he hm hr)
  · intro h
    obtain ⟨-, n, hn⟩ := Reaches.map_iff.2 h
    exact (sound hempty n).1 he hm hn hr

/-- The evaluator and the rules agree on how a statement ends: on a value returned, on an end
without one, on the value of an expression and on every fault, and each time on the
environment and the printed text that are left. -/
structure Agrees (empty : Except Fault Ending) (s : Statement) (m : Machine) : Prop where
  returned : ∀ v m', Completes (s.tree .returns) m (.ok ⟨v, true⟩) m' ↔
    Executes empty s m (.ok (.returned v)) m'
  normal : (∀ e, s ≠ .expression e) → ∀ m',
    (Completes (s.tree .returns) m (.ok ⟨.null, false⟩) m' ↔ Executes empty s m (.ok .normal) m')
  null : (∀ e, s ≠ .expression e) → ∀ v m',
    Completes (s.tree .returns) m (.ok ⟨v, false⟩) m' → v = .null
  value : ∀ e, s = .expression e → ∀ v m',
    (Completes (s.tree .returns) m (.ok ⟨v, false⟩) m' ↔ Evaluates empty e [] m (.ok v) m')
  fault : ∀ f m', f ≠ .exhausted →
    (Completes (s.tree .returns) m (.error f) m' ↔ Executes empty s m (.error f) m')

/-- A statement other than an expression has no value of its own: it completes with null. -/
theorem null_of_completes {s : Statement} {m m' : Machine} {v : Value}
    (hs : ∀ e, s ≠ .expression e) (h : Completes (s.tree .returns) m (.ok ⟨v, false⟩) m') :
    v = .null := by
  have hpass : Completes (s.tree .returns) m (.ok ⟨v, false⟩) m' ↔
      (.ok ⟨v, false⟩ : Except Fault Completion) = .ok (passOn ⟨v, false⟩) ∧ m' = m' := by
    rw [← passOn_of_completes h]
    simp only [eval_passOn hs]
    exact Iff.rfl
  cases (hpass.1 h).1
  rfl

theorem map_ending_eq_returned {r : Except Fault Completion} {v : Value}
    (h : .ok (.returned v) = r.map Completion.ending) : r = .ok ⟨v, true⟩ := by
  match r with
  | .ok ⟨w, true⟩ =>
    cases h
    rfl

theorem map_ending_eq_normal {r : Except Fault Completion}
    (h : .ok .normal = r.map Completion.ending) : ∃ v, r = .ok ⟨v, false⟩ := by
  match r with
  | .ok ⟨w, false⟩ => exact ⟨w, rfl⟩

theorem map_eq_error {α : Type} {r : Except Fault Completion} {g : Completion → α} {f : Fault}
    (h : .error f = r.map g) : r = .error f := by
  match r with
  | .error f' =>
    cases h
    rfl

/-- An expression that is no call does not return. -/
theorem not_returning_of_completes {e : Expression} (he : e.isCall = false) {m m' : Machine}
    {c : Completion} (h : Completes (e.tree .returns) m (.ok c) m') : c = .normal c.value := by
  obtain ⟨-, n, hn⟩ := completes_iff.1 h
  obtain ⟨v, m₁, -, hpure⟩ :=
    Action.bind_eq_ok ((congrFun (eval_eq_value n he) m).symm.trans hn)
  cases hpure
  rfl

/-- **The evaluator agrees with the rules**, on a disciplined statement and machine. -/
theorem agrees (hempty : blank = true → empty = .error (.missingField "statement"))
    {s : Statement} {m : Machine} (hs : s.disciplined blank = true)
    (hm : Name.Disciplined blank m.environment) : Agrees empty s m where
  returned v m' := by
    rw [executes_iff hempty hs hm (by simp)]
    constructor
    · intro h
      exact ⟨_, h, rfl⟩
    · rintro ⟨r, h, hr⟩
      rwa [map_ending_eq_returned hr] at h
  normal hne m' := by
    rw [executes_iff hempty hs hm (by simp)]
    constructor
    · intro h
      exact ⟨_, h, rfl⟩
    · rintro ⟨r, h, hr⟩
      obtain ⟨v, rfl⟩ := map_ending_eq_normal hr
      rwa [null_of_completes hne h] at h
  null hne v m' h := null_of_completes hne h
  value e he v m' := by
    subst he
    simp only [Statement.disciplined, Bool.and_eq_true, Bool.not_eq_true'] at hs
    rw [evaluates_iff hempty hs.2 hm (by simp)]
    constructor
    · intro h
      exact ⟨_, h, rfl⟩
    · rintro ⟨r, h, hr⟩
      match r with
      | .ok c =>
        cases hr
        rwa [not_returning_of_completes hs.1 h] at h
  fault f m' hf := by
    rw [executes_iff hempty hs hm (by simpa using hf)]
    constructor
    · intro h
      exact ⟨_, h, rfl⟩
    · rintro ⟨r, h, hr⟩
      rwa [map_eq_error hr] at h

/-- **The evaluator agrees with the reference semantics but for empty blocks.** Take a program
that the parser accepts in which no statement is a bare call, and an environment in which no
function in sight has one. Then the evaluator ends the program exactly as the rules say, with
the same environment and the same printed text, if the rules let an empty block fail with the
missing field `statement`. If there are no empty blocks either, in the program and in the
functions in sight, the rules may as well say of them what they should, that they end
normally: the evaluator agrees with the reference semantics. -/
theorem evaluate_agrees_with_reference {code : String} {t : Tree}
    (ht : Program.tree .returns code = .ok t) :
    (∃ s : Statement, s.tree .returns = t) ∧
    ∀ s : Statement, s.tree .returns = t → ∀ m : Machine,
      (s.disciplined true = true → Name.Disciplined true m.environment →
        Agrees (.error (.missingField "statement")) s m) ∧
      (s.disciplined false = true → Name.Disciplined false m.environment →
        Agrees (.ok .normal) s m) := by
  obtain ⟨s₀, h₀⟩ := Program.tree_image ht
  refine ⟨⟨s₀, h₀.symm⟩, fun s _ m => ⟨fun hs hm => ?_, fun hs hm => ?_⟩⟩
  · exact agrees (fun _ => rfl) hs hm
  · have hempty : false = true → (.ok .normal : Except Fault Ending) =
        .error (.missingField "statement") := nofun
    exact agrees hempty hs hm

/-- A function that returns from inside a loop, called in an assignment: by the evaluator's
run, the rules give `x` the value returned. -/
theorem evaluate_agrees_with_reference_of_loop :
    ∃ (s : Statement) (env : Value),
      Program.tree .returns "\x7bf=function(n)\x7bwhile(n)\x7breturn n\x7d\x7d;x=f(2)\x7d" =
        .ok (s.tree .returns) ∧
      env.field "x" = .ok (.int 2) ∧
      Executes (.ok .normal) s ⟨.record [], ""⟩ (.ok .normal) ⟨env, ""⟩ := by
  let n : Identifier := ⟨"n", by decide⟩
  let f : Identifier := ⟨"f", by decide⟩
  let loop : Expression := .function [n] [.loop (.name n) (.block [.giveBack (some (.name n))])]
  let s : Statement := .block [.assign f loop,
    .assign ⟨"x", by decide⟩ (.call (.name f) [.number (.int 2)])]
  have hempty : Name.Disciplined false (.record []) := nofun
  have hagrees := ((@evaluate_agrees_with_reference
    "\x7bf=function(n)\x7bwhile(n)\x7breturn n\x7d\x7d;x=f(2)\x7d" (s.tree .returns) rfl).2 s rfl
      ⟨.record [], ""⟩).2 rfl hempty
  have hrun : Completes (s.tree .returns) ⟨.record [], ""⟩ (.ok ⟨.null, false⟩)
      ⟨.record [("f", loop.tree .returns), ("x", .int 2)], ""⟩ := ⟨by simp, 12, rfl⟩
  exact ⟨s, _, rfl, rfl, (hagrees.normal nofun _).1 hrun⟩

/-- The empty block ends normally by the reference semantics, and never does so evaluated. -/
theorem empty_block_never_completes :
    Program.tree .returns "\x7b\x7d" = .ok ((Statement.block []).tree .returns) ∧
    (Statement.block []).disciplined true = true ∧
    Executes (.ok .normal) (.block []) ⟨.record [], ""⟩ (.ok .normal) ⟨.record [], ""⟩ ∧
    ∀ c m', ¬ Completes ((Statement.block []).tree .returns) ⟨.record [], ""⟩ (.ok c) m' := by
  refine ⟨rfl, rfl, .emptyBlock _, fun c m' h => ?_⟩
  have hfails : Completes ((Statement.block []).tree .returns) ⟨.record [], ""⟩
      (.error (.missingField "statement")) ⟨.record [], ""⟩ := ⟨by simp, 1, rfl⟩
  cases (Ends.unique h hfails).1

end Reference

end Stepwise
