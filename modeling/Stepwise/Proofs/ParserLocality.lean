import Stepwise.Proofs.Lookahead

/-!
# What a rule has read stays read

What a rule has read it reads again before everything that starts with the same tag, and before
everything with which it does not go on (`read_solid`). One lemma for each reader of the parser, and
an induction on the budget.
-/

namespace Stepwise.Rule

open Token (headTag Is)

/-! ## The first token -/

/-- The tags that a phrase may start with. -/
def openers (st : Stage) : List String :=
  [st.numberTag, st.booleanTag, st.nameTag, "if", "while", "function", "return", "print", "\x7b",
    "(", "!", "-"]

theorem openers_subset_vocabulary (st : Stage) : openers st ⊆ vocabulary st := by
  cases st <;> decide

/-- The first token is one that a phrase may start with. -/
def Begins (st : Stage) (ts : List Token) : Prop :=
  ∃ tag ∈ openers st, headTag ts = .ok (.text tag)

/-- What starts as a phrase starts with a tag that rules look for, and not with a slash. -/
theorem Begins.opens {st : Stage} {ts : List Token} (h : Begins st ts) : Opens st ts := by
  obtain ⟨tag, htag, hhead⟩ := h
  exact ⟨tag, openers_subset_vocabulary st htag, hhead⟩

/-- Nothing starts with what no phrase may start with. -/
theorem Begins.stops {st : Stage} {ts : List Token} (h : Begins st ts) {tags : List String}
    (htags : ∀ tag ∈ tags, tag ∉ openers st) : Stops tags ts := by
  obtain ⟨opener, hopener, hhead⟩ := h
  refine ⟨_, hhead, fun tag htag heq => htags tag htag ?_⟩
  rwa [← Value.text.inj heq]

section Head

variable {st : Stage}

/-- What is behind a tag that opens phrases began as a phrase does. -/
theorem skip_begins {tag : String} (htag : tag ∈ openers st) (ts : List Token) :
    Yields (fun _ => Begins st ts) (skip tag ts) := by
  intro rest hrest
  obtain ⟨t, rfl, ht⟩ := skip_token tag ts rest hrest
  exact ⟨tag, htag, ht⟩

theorem nextIs_begins {tag : String} (htag : tag ∈ openers st) {ts : List Token} {b : Bool}
    (h : nextIs tag ts = .ok b) (hb : b = true) : Begins st ts :=
  ⟨tag, htag, headTag_of_nextIs h hb⟩

theorem nameTag_mem_openers (st : Stage) : st.nameTag ∈ openers st := by
  simp [openers]

theorem nameTag_mem_vocabulary (st : Stage) : st.nameTag ∈ vocabulary st := by
  simp [vocabulary]

variable {rule : Rule → List Token → Reading} {ts : List Token}
  (h : ∀ r ts, Yields (fun _ => Begins st ts) (rule r ts))
include h

/-- A statement starts as phrases do: each of its branches looks at an opening tag, or asks a
rule. -/
theorem readStatement_begins : Yields (fun _ => Begins st ts) (readStatement st rule ts) := by
  have hrule := fun r => h r ts
  refine .bind fun _ _ => .ite (fun _ => hrule _) fun _ => .ite (fun _ => hrule _) fun _ => ?_
  refine .ite (fun _ => ?_) fun _ => .ite (fun _ => hrule _) fun _ => .ite (fun _ => hrule _) ?_
  · exact .bind fun _ _ => .ite (fun _ => hrule _) fun _ => hrule _
  · refine fun _ => .ite (fun _ => hrule _) fun _ => .ite (fun _ => ?_) fun _ => hrule _
    exact .bind fun _ _ => .ite (fun _ => hrule _) fun _ => hrule _

omit h in
/-- A simple expression starts as phrases do, whatever rule reads the operand of its sign. -/
theorem readSimple_begins (operand : Rule) :
    Yields (fun _ => Begins st ts) (readSimple st rule operand ts) := by
  refine .bind fun v hv => ?_
  have hbegins : ∀ {tag : String} {x : Reading}, tag ∈ openers st → v.isText tag = true →
      Yields (fun _ => Begins st ts) x :=
    fun htag htext _ _ => ⟨_, htag, headTag_of_isText hv htext⟩
  have hbegins' : ∀ {tag : String} {c : Bool} {x : Reading}, tag ∈ openers st →
      (v.isText tag && c) = true → Yields (fun _ => Begins st ts) x :=
    fun htag hboth => hbegins htag (Bool.and_eq_true_iff.1 hboth).1
  refine .ite (hbegins (by simp [openers])) fun _ =>
    .ite (hbegins' (by simp [openers])) fun _ =>
    .ite (hbegins' (by simp [openers])) fun _ => .ite (hbegins (by simp [openers])) fun _ =>
    .ite (hbegins' (by simp [openers])) fun _ => .ite (hbegins' (by simp [openers])) fun _ =>
    .error _

/-- Whatever a rule reads starts as phrases do. -/
theorem step_begins (n : Nat) (r : Rule) :
    Yields (fun _ => Begins st ts) (step st rule n r ts) := by
  -- the two ways in which a rule gets going: it skips an opening tag, or it asks another rule first
  have hskip : ∀ {α : Type} {tag : String} {f : List Token → Except Fault α}, tag ∈ openers st →
      Yields (fun _ => Begins st ts) (skip tag ts >>= f) :=
    fun htag => .andThen (skip_begins htag ts) fun _ hbegins _ _ => hbegins
  have hfirst : ∀ {r : Rule} {f : Tree × List Token → Reading},
      Yields (fun _ => Begins st ts) (rule r ts >>= f) :=
    .andThen (h _ ts) fun _ hbegins _ _ => hbegins
  cases r with
  | statement => exact readStatement_begins h
  | ifStatement | whileStatement | blockStatement | returnStatement | printStatement
  | functionStatement | functionLiteral | nameList | expressionList =>
    exact hskip (by simp [openers])
  | expression => exact h _ ts
  | disjunction | conjunction | comparison | sum | product | callable => exact hfirst
  | simple => exact readSimple_begins _
  | assignment =>
    refine .bind fun b hb => .ite (fun _ => .error _) fun hname _ _ => ?_
    exact nextIs_begins (nameTag_mem_openers st) hb (by simpa using hname)
  | negation =>
    refine .bind fun b hb => .ite (fun hsign _ _ => ?_) fun _ => h _ ts
    exact nextIs_begins (by simp [openers]) hb hsign
  | factor =>
    -- at `functions` a name may open a call, and the rule looks for it before all else
    cases st with
    | returns => exact h .callable ts
    | functions =>
      refine .bind fun b hb => .ite (fun hname _ _ => ?_) fun _ => readSimple_begins _
      exact nextIs_begins (nameTag_mem_openers _) hb hname
    | expressions | assignments | booleans | conditions | blocks | scopes =>
      exact readSimple_begins _

end Head

/-! ## The tokens behind it -/

/-- The statements of a block, up to its closing brace. -/
def statements (rule : Rule → List Token → Reading) (budget : Nat) (ts : List Token) :
    Except Fault (List Tree × List Token) := do
  let ts ← skipSemicolons ts
  if ← nextIs "\x7d" ts then return ([], ts)
  else
    let (s, ts) ← rule .statement ts
    let (more, ts) ← moreStatements rule budget ts
    return (s :: more, ts)

/-- A block, read as its braces with the statements between them. -/
theorem readBlock_eq (rule : Rule → List Token → Reading) (n : Nat) (ts : List Token) :
    readBlock rule n ts = do
      let ts ← skip "\x7b" ts
      let p ← statements rule n ts
      let rest ← skip "\x7d" p.2
      return (Tree.block p.1, rest) := by
  simp only [readBlock, statements, bind_assoc]
  refine bind_congr fun ts₁ => bind_congr fun ts₂ => ?_
  cases hb : nextIs "\x7d" ts₂ with
  | error e => rfl
  | ok b =>
    cases b with
    | false => simp
    | true => simp [skip, hb]

section Later

variable {st : Stage} {rule : Rule → List Token → Reading}
  (h : ∀ r, Solid st (Quits st r) (rule r))
include h

/-! ### Repetition -/

omit h in
/-- A turn of the loop: an operator and an operand behind it. -/
theorem leftward_round {operand : Rule} {operators : List String} {tag : String} {t : Token}
    (ht : Is tag t) (htag : tag ∈ operators) (n : Nat) (left : Tree) (more : List Token) :
    leftward st rule operand operators (n + 1) left (t :: more) =
      rule operand more >>= fun q =>
        leftward st rule operand operators n (Tree.binary st tag left q.1) q.2 := by
  rw [leftward]
  simp [headTag_of_is ht, htag]

omit h in
/-- The loop ends, or it takes a turn and goes on. -/
theorem leftward_inv {operand : Rule} {operators : List String} {n : Nat} {left : Tree}
    {ts : List Token} {p : Tree × List Token}
    (hp : leftward st rule operand operators (n + 1) left ts = .ok p) :
    (Stops operators ts ∧ p = (left, ts)) ∨
      ∃ tag t more right rest, ts = t :: more ∧ Is tag t ∧ tag ∈ operators ∧
        rule operand more = .ok (right, rest) ∧
        leftward st rule operand operators n (Tree.binary st tag left right) rest = .ok p := by
  obtain hstops | ⟨tag, htag, hhead⟩ | ⟨e, hhead⟩ := stops_or_headTag operators ts
  · rw [leftward_end n hstops] at hp
    exact .inl ⟨hstops, (Except.ok.inj hp).symm⟩
  · obtain ⟨t, more, rfl, ht⟩ := exists_of_headTag hhead
    rw [leftward_round ht htag] at hp
    cases hright : rule operand more with
    | error e =>
      rw [hright] at hp
      cases hp
    | ok q =>
      rw [hright] at hp
      exact .inr ⟨tag, t, more, q.1, q.2, rfl, ht, htag, hright, hp⟩
  · rw [leftward, hhead] at hp
    cases hp

omit h in
/-- A chain of operators is local wherever the operand is and nothing calm goes on with an
operator. -/
theorem leftward_local {calm : List Token → Prop} {operand : Rule} {operators : List String}
    (hoperand : Solid st calm (rule operand)) (hcalm : ∀ ts, calm ts → Stops operators ts)
    (htags : operators ⊆ "/" :: vocabulary st) :
    ∀ (n : Nat) (left : Tree), Local st calm (leftward st rule operand operators n left)
  | 0, _ => .error _
  | n + 1, left => by
    intro ts p hp
    rcases leftward_inv hp with ⟨hstops, rfl⟩ | ⟨tag, t, more, -, -, rfl, ht, htag, -⟩
    · exact ⟨[], rfl, .nil, fun rest' hrest => leftward_end n (hrest.stops hcalm hstops)⟩
    · -- a slash is followed by an operand, which does not start with one
      have hnext : Solid st calm fun ts => rule operand ts >>= fun q =>
          leftward st rule operand operators n (Tree.binary st tag left q.1) q.2 :=
        .bind hoperand fun right =>
          leftward_local hoperand hcalm htags n (Tree.binary st tag left right)
      rw [leftward_round ht htag] at hp
      obtain ⟨us, rfl, hstarts, hus, hagain⟩ := hnext.split hp
      refine ⟨t :: us, rfl, ⟨?_, fun _ => hstarts, hus.apart⟩,
        fun rest' hrest => (leftward_round ht htag ..).trans (hagain rest' hrest)⟩
      rintro u (_ | ⟨_, hu⟩)
      · exact ⟨tag, htags htag, ht⟩
      · exact hus.known u hu

/-- The calls behind a callee are local: each turn reads one list of arguments. -/
theorem calls_local : ∀ (n : Nat) (callee : Tree),
    Local st (Quits st .expression) (calls st rule n callee)
  | 0, _ => .error _
  | n + 1, callee => by
    refine .choose (Solid.consumes ?_) (.pure _) fun _ hcalm => hcalm.stops.mono (by simp [goesOn])
    exact .bind (h .expressionList) fun _ => calls_local n _

/-- The expressions behind a comma are local. -/
theorem moreExpressions_local : ∀ n : Nat,
    Local st (Quits st .expression) (moreExpressions rule n)
  | 0 => .error _
  | n + 1 => by
    refine .take (by simp [vocabulary]) (fun _ => ?_) (.pure _)
      fun _ _ _ _ hcalm => hcalm.stops.mono (by simp [goesOn])
    refine .bind (h .expression).toLocal fun _ => ?_
    exact .bind (moreExpressions_local n) fun _ => .pure _

/-- The statements of a block are local before its closing brace. Nothing is calm: behind a
statement the loop looks at whatever comes. -/
theorem moreStatements_local : ∀ n : Nat, Local st (fun _ => False) (moreStatements rule n)
  | 0 => .error _
  | n + 1 => by
    have ih := moreStatements_local n
    refine .look fun _ => .ite (fun _ => .semicolons ?_) fun _ => .pure _
    refine .look fun _ => .ite (fun _ => ih) fun _ => ?_
    refine .bind ((h .statement).toLocal.mono fun _ => False.elim) fun _ => ?_
    refine .look fun _ => .look fun _ => .ite (fun _ => .error _) fun _ => ?_
    exact .bind ih fun _ => .pure _

theorem statements_local (n : Nat) : Local st (fun _ => False) (statements rule n) := by
  unfold statements
  refine .semicolons (.look fun _ => .ite (fun _ => .pure _) fun _ => ?_)
  refine .bind ((h .statement).toLocal.mono fun _ => False.elim) fun _ => ?_
  exact .bind (moreStatements_local h n) fun _ => .pure _

omit h in
/-- A parameter is one token, the name. -/
theorem parameter_solid (st : Stage) (calm : List Token → Prop) : Solid st calm (parameter st) := by
  refine ⟨fun ts => ?_, fun t => ?_⟩
  · refine .bind fun b hb => .ite (fun hname _ _ => ?_) fun _ => .error _
    exact (nextIs_begins (nameTag_mem_openers st) hb hname).opens
  · refine .fixed (fun _ _ => rfl) fun _ => .ite (fun _ => ?_) fun _ => .error _
    exact .fixed (fun _ _ => rfl) fun _ => .pure _

omit h in
theorem moreParameters_local (st : Stage) : ∀ n : Nat,
    Local st (Quits st .expression) (moreParameters st n)
  | 0 => .error _
  | n + 1 => by
    refine .take (by simp [vocabulary]) (fun _ => ?_) (.pure _)
      fun _ _ _ _ hcalm => hcalm.stops.mono (by simp [goesOn])
    exact .bind (parameter_solid st _).toLocal fun _ =>
      .bind (moreParameters_local st n) fun _ => .pure _

/-! ### The rules -/

/-- A simple expression is local behind its first token, which alone decides what is read. -/
theorem readSimple_later {operand : Rule} (hoperand : operand.mayReturn st = false) (t : Token) :
    Local st (Quits st .expression) fun more => readSimple st rule operand (t :: more) := by
  have hleaf : ∀ tag, Local st (Quits st .expression) fun more => readLeaf st tag (t :: more) :=
    fun tag => .fixed (fun _ _ => rfl) fun _ => .pure _
  have hrule : ∀ r, r.mayReturn st = false → Local st (Quits st .expression) (rule r) :=
    fun r hr => (h r).toLocal.mono fun _ => Quits.imp (by simp [hr])
  refine .fixed (fun _ _ => rfl) fun _ => .ite (fun _ => hleaf _) fun _ => .ite (fun _ => hleaf _)
    fun _ => .ite (fun _ => hleaf _) fun _ => .ite (fun _ => ?_) fun _ => .ite (fun _ => ?_)
    fun _ => .ite (fun _ => (h .functionLiteral).later t) fun _ => .error _
  · refine .bind (hrule _ (by split <;> rfl)) fun _ => ?_
    exact .take (by simp [vocabulary]) (fun _ => .pure _) (.error _) nofun
  · exact .bind (hrule operand hoperand) fun _ => .pure _

/-- A factor is local behind its first token, at every stage. -/
theorem readFactor_later (t : Token) :
    Local st (Quits st .expression) fun more => readFactor st rule (t :: more) := by
  cases st with
  | returns => exact (h .callable).later t
  | functions =>
    refine .fixed (fun _ _ => rfl) fun _ => .ite (fun _ => ?_) fun _ => readSimple_later h rfl t
    have hleaf : Local .functions (Quits .functions .expression) fun more =>
        readLeaf .functions (Stage.nameTag .functions) (t :: more) :=
      .fixed (fun _ _ => rfl) fun _ => .pure _
    refine .bind hleaf fun _ => .choose (Solid.consumes ?_) (.pure _)
      fun _ hcalm => hcalm.stops.mono (by simp [goesOn])
    exact .bind (h .expressionList) fun _ => .pure _
  | expressions | assignments | booleans | conditions | blocks | scopes =>
    exact readSimple_later h rfl t

omit h in
/-- A condition is local wherever its expression is. -/
theorem readCondition_local {calm : List Token → Prop}
    (hexpression : Local st calm (rule .expression)) (closing : String) :
    Local st calm (readCondition rule closing) := by
  refine .demand _ (by simp [vocabulary]) (.bind hexpression fun _ => ?_)
  exact .demand _ (by simp [vocabulary]) (.pure _)

/-- Where a statement does not go on, its expressions do not either. -/
theorem expression_local (r : Rule) : Local st (Quits st r) (rule .expression) :=
  (h .expression).toLocal.mono fun _ => Quits.stops

/-- An `if` is local: before a rest that it quits there is no `else`. -/
theorem readIf_later (t : Token) :
    Local st (Quits st .ifStatement) fun more => readIf st rule (t :: more) := by
  refine .skipped _ t (.bind (readCondition_local (expression_local h _) _) fun _ => ?_)
  refine .bind (h .statement).toLocal fun _ => .ite (fun _ => ?_) fun _ => .pure _
  refine .take (by simp [vocabulary]) (fun _ => ?_) (.pure _)
    fun _ _ _ _ hcalm => hcalm.stops.mono (by simp [goesOn])
  exact .bind (h .statement).toLocal fun _ => .pure _

theorem readBlock_later (calm : List Token → Prop) (n : Nat) (t : Token) :
    Local st calm fun more => readBlock rule n (t :: more) := by
  simp only [readBlock_eq]
  exact .skipped _ t (.closed (statements_local h n))

omit h in
theorem readNameList_later (n : Nat) (t : Token) :
    Local st (Quits st .expression) fun more => readNameList st n (t :: more) := by
  refine .skipped _ t (.closing (by simp [vocabulary]) (fun _ => .pure _) ?_)
  refine .bind (parameter_solid st _) fun _ => .bind (moreParameters_local st n) fun _ => ?_
  exact .skip (by simp [vocabulary]) (.pure _)

theorem readExpressionList_later (n : Nat) (t : Token) :
    Local st (Quits st .expression) fun more => readExpressionList rule n (t :: more) := by
  refine .skipped _ t (.closing (by simp [vocabulary]) (fun _ => .pure _) ?_)
  refine .bind (h .expression) fun _ => .bind (moreExpressions_local h n) fun _ => ?_
  exact .skip (by simp [vocabulary]) (.pure _)

theorem readAssignment_later (t : Token) :
    Local st (Quits st .expression) fun more => readAssignment st rule (t :: more) := by
  refine .fixed (fun _ _ => rfl) fun _ => .ite (fun _ => .error _) fun _ =>
    .fixed (fun _ _ => rfl) fun _ => ?_
  exact .demand _ (by simp [vocabulary]) (.bind (h .expression).toLocal fun _ => .pure _)

/-- A `return` has no value before any token that ends it. -/
theorem readReturn_later (t : Token) :
    Local st (Quits st .returnStatement) fun more => readReturn rule (t :: more) := by
  refine .skipped _ t fun ts => ?_
  -- a value, if there is one, is solid, so that the next token tells the two forms apart
  have hvalue : Solid st (Quits st .returnStatement) fun ts => rule .expression ts >>= fun p =>
      (pure (Tree.giveBack (some p.1), p.2) : Reading) :=
    .bind ((h .expression).mono fun _ => Quits.stops) fun e => .pure (Tree.giveBack (some e))
  refine .bind fun v hv => .ite (fun hempty => .pure ⟨[], rfl, .nil, fun rest' hrest => ?_⟩) ?_
  -- no value: the other rest also starts with a token that ends the statement
  · obtain ⟨v', hv', hempty'⟩ : Ended rest' := by
      cases hrest with
      | tag h => exact ⟨v, h.trans hv, hempty⟩
      | calm hended => exact hended
    exact (bind_of_ok hv' _).trans (if_pos hempty')
  · intro hfull p hp
    obtain ⟨us, rfl, hstarts, hreads⟩ := hvalue.split hp
    refine ⟨us, rfl, hreads.of_eq fun rest' _ => ?_⟩
    exact (bind_of_ok ((hstarts.headTag _ _).trans hv) _).trans (if_neg hfull)

/-- The sign that is made up and the keyword are consumed together with the name. -/
theorem readFunctionStatement_later
    (hpast : ∀ ts, Yields (fun p => Past 3 ts p.2) (rule .assignment ts)) (t : Token) :
    Local st (Quits st .expression) fun more => readFunctionStatement st rule (t :: more) := by
  intro more
  refine .andThen (skip_token _ _) ?_
  rintro _ ⟨_, heq, ht⟩
  cases heq
  refine .andThen (skip_token _ _) ?_
  rintro rest ⟨name, hmore, hname⟩
  obtain rfl : more = name :: rest := hmore
  refine .bind fun position hposition p hp => ?_
  have hread : ∀ rest, readFunctionStatement st rule (t :: name :: rest) =
      rule .assignment (name :: .record [("tag", .text "="), ("position", position)] :: t ::
        rest) := by
    intro rest
    simp [readFunctionStatement, skip_of_is ht, skip_of_is hname, hposition]
  obtain ⟨us, hus, htaken, hagain⟩ := (h .assignment).later name _ p hp
  -- an assignment has three tokens at least, so the two that are put in are read
  have hlength := (hpast _ p hp).length
  have hcount := congrArg List.length hus
  simp only [List.length_cons, List.length_append] at hlength hcount
  obtain ⟨u, us, rfl⟩ := List.exists_cons_of_length_pos (show 0 < us.length by omega)
  rw [List.length_cons] at hcount
  obtain ⟨v, us, rfl⟩ := List.exists_cons_of_length_pos (show 0 < us.length by omega)
  cases hus
  have hlater : Taken st us :=
    ⟨fun w hw => htaken.known w (by simp [hw]), htaken.apart.2.2⟩
  refine ⟨name :: us, rfl, (Taken.single hname (nameTag_mem_vocabulary st)).append hlater, ?_⟩
  exact fun rest' hrest => (hread _).trans (hagain rest' hrest)

/-- A statement is local. Where the second token chooses between two rules, the rule that it
announces must read it as well, or the choice would hang on what is ahead. -/
theorem readStatement_later
    (hpast : ∀ ts, Yields (fun p => Past 2 ts p.2) (rule .functionStatement ts))
    (hpast' : ∀ ts, Yields (fun p => Past 3 ts p.2) (rule .assignment ts)) (t : Token) :
    Local st (Quits st .statement) fun more => readStatement st rule (t :: more) := by
  -- the rule that the first token chooses is local behind that token
  have hrule : ∀ r, (r.mayReturn st = true → st.has .functions = true) →
      Local st (Quits st .statement) fun more => rule r (t :: more) :=
    fun r hr => ((h r).later t).mono fun _ => Quits.imp hr
  refine .fixed (fun _ _ => rfl) fun _ => .ite (fun _ => hrule _ id) fun _ =>
    .ite (fun _ => hrule _ id) fun _ => .ite (fun _ => ?_) fun _ =>
    .ite (fun hreturn => hrule _ fun _ => (Bool.and_eq_true_iff.1 hreturn).2) fun _ =>
    .ite (fun _ => hrule _ nofun) fun _ => .ite (fun _ => hrule _ nofun) fun _ =>
    .ite (fun _ => ?_) fun _ => hrule _ nofun
  -- `function`, with a name behind it or without
  · refine .choose ⟨hrule _ nofun, fun more a hread => ?_⟩ (hrule _ nofun)
      fun _ hcalm => hcalm.stops.mono (by simp [goesOn])
    have hlength := (hpast _ _ hread).length
    simp at hlength
  -- a name, with `=` behind it or without
  · refine .choose ⟨hrule _ nofun, fun more a hread => ?_⟩ (hrule _ nofun)
      fun _ hcalm => hcalm.stops.mono (by simp [goesOn])
    have hlength := (hpast' _ _ hread).length
    simp at hlength

/-- **One application of a rule is local** behind its first token. -/
theorem step_later (hpast : ∀ ts, Yields (fun p => Past 2 ts p.2) (rule .functionStatement ts))
    (hpast' : ∀ ts, Yields (fun p => Past 3 ts p.2) (rule .assignment ts))
    (n : Nat) (r : Rule) (t : Token) :
    Local st (Quits st r) fun more => step st rule n r (t :: more) := by
  -- the five levels of operators are one reader, with an operand and a list of operators
  have hleveled : ∀ operand operators, operand.mayReturn st = false →
      operators ⊆ Rule.operators → Local st (Quits st .expression) fun more =>
        readLeftward st rule n operand operators (t :: more) := by
    intro operand operators hoperand hoperators
    have hsolid : Solid st (Quits st .expression) (rule operand) :=
      (h operand).mono fun _ => Quits.imp (by simp [hoperand])
    refine .bind (hsolid.later t) fun _ => leftward_local hsolid (fun _ hcalm => ?_) ?_ n _
    · exact hcalm.stops.mono fun s hs => by simp [goesOn, hoperators hs]
    · exact fun s hs => operators_subset st (hoperators hs)
  cases r with
  | statement => exact readStatement_later h hpast hpast' t
  | ifStatement => exact readIf_later h t
  | whileStatement =>
    refine .skipped _ t (.bind (readCondition_local (expression_local h _) _) fun _ => ?_)
    exact .bind (h .statement).toLocal fun _ => .pure _
  | blockStatement => exact readBlock_later h _ n t
  | returnStatement => exact readReturn_later h t
  | printStatement => exact .skipped _ t (.bind (h .expressionList).toLocal fun _ => .pure _)
  | functionStatement => exact readFunctionStatement_later h hpast' t
  | assignment => exact readAssignment_later h t
  | expression =>
    refine ((h _).later t).mono fun _ => Quits.imp ?_
    split <;> nofun
  | disjunction | conjunction | comparison | sum | product =>
    exact hleveled _ _ rfl (by decide)
  | negation =>
    refine .fixed (fun _ _ => rfl) fun _ => .ite (fun _ => ?_) fun _ => (h .comparison).later t
    exact .bind (h .negation).toLocal fun _ => .pure _
  | factor => exact readFactor_later h t
  | callable => exact .bind ((h .simple).later t) fun _ => calls_local h n _
  | simple => exact readSimple_later h rfl t
  | functionLiteral =>
    refine .skipped _ t (.bind (h .nameList).toLocal fun _ => ?_)
    exact .bind (h .blockStatement).toLocal fun _ => .pure _
  | nameList => exact readNameList_later n t
  | expressionList => exact readExpressionList_later h n t

end Later

/-! ## All rules -/

/-- Every rule reads at least the tokens that its form requires. -/
theorem apply_past (st : Stage) (n : Nat) (r : Rule) (ts : List Token) :
    Yields (fun p => Past r.least ts p.2) (apply st n r ts) := by
  intro p hp
  have hread := apply_extends_read st n r ts (by rw [hp]; simp)
  have hpast := read_concludes st r ts
  rw [hread, hp] at hpast
  exact hpast

/-- A function statement reads its keyword and its name at least. The assignment that it is read as
sees three tokens in front of the rest, where the statement has two. -/
theorem apply_functionStatement_past (st : Stage) : ∀ (n : Nat) (ts : List Token),
    Yields (fun p => Past 2 ts p.2) (apply st n .functionStatement ts)
  | 0, _ => .error _
  | n + 1, ts => by
    refine .andThen (skip_token _ _) ?_
    rintro _ ⟨keyword, rfl, -⟩
    refine .andThen (skip_token _ _) ?_
    rintro rest ⟨name, hmore, -⟩
    rw [List.drop_one, List.tail_cons] at hmore
    subst hmore
    refine .bind fun position _ p hp => ?_
    -- an assignment reads three tokens at least, so that what it leaves is behind all of them
    have hpast : Past 3 _ p.2 := apply_past st n .assignment _ p hp
    have hlength := hpast.length
    have hsuffix : p.2 <:+ rest := List.suffix_of_suffix_length_le hpast.suffix
      (List.suffix_append [name, _, keyword] rest) (by simpa using hlength)
    exact ⟨hsuffix.trans (List.suffix_append [keyword, name] rest), by simpa using hlength⟩

/-- Whatever the budget, a rule that reads something finds the beginning of a phrase. -/
theorem apply_begins (st : Stage) : ∀ (n : Nat) (r : Rule) (ts : List Token),
    Yields (fun _ => Begins st ts) (apply st n r ts)
  | 0, _, _ => .error _
  | n + 1, r, _ => step_begins (apply_begins st n) n r

/-- **Every rule is solid**, whatever the budget. -/
theorem apply_solid (st : Stage) : ∀ (n : Nat) (r : Rule), Solid st (Quits st r) (apply st n r)
  | 0, _ => ⟨fun _ => .error _, fun _ => .error _⟩
  | n + 1, r => by
    refine ⟨fun ts p hp => (apply_begins st (n + 1) r ts p hp).opens, fun t => ?_⟩
    exact step_later (apply_solid st n) (apply_functionStatement_past st n)
      (apply_past st n .assignment) n r t

/-- **What a rule has read, it reads again** before everything that starts with the same tag, and
before everything with which it does not go on. -/
theorem read_solid (st : Stage) (r : Rule) : Solid st (Quits st r) (r.read st) := by
  refine ⟨fun ts => (apply_solid st _ r).head ts, fun t more p hp => ?_⟩
  obtain ⟨us, hmore, hus, hagain⟩ := (apply_solid st _ r).later t more p hp
  refine ⟨us, hmore, hus, fun rest' hrest => ?_⟩
  -- the budget goes with the number of tokens, but any budget that is enough gives the same
  have happly : apply st _ r (t :: (us ++ rest')) = .ok (p.1, rest') := hagain rest' hrest
  exact (apply_extends_read st _ r _ (by rw [happly]; simp)).trans happly

section Read

variable {st : Stage} {r : Rule} {ts us rest rest' : List Token} {t : Tree}
  {p : Tree × List Token}

/-- What a rule has read it reads again before another rest with the same ahead. -/
theorem read_ahead (h : r.read st (us ++ rest) = .ok (t, rest))
    (hrest : SameAhead (Quits st r) rest rest') : r.read st (us ++ rest') = .ok (t, rest') := by
  obtain ⟨vs, hvs, -, hagain⟩ := (read_solid st r).toLocal _ _ h
  obtain rfl : us = vs := List.append_cancel_right hvs
  exact hagain _ hrest

/-- Behind what a rule has read there may be anything else with which it does not go on. -/
theorem read_again (h : r.read st (us ++ rest) = .ok (t, rest)) (hrest : Quits st r rest') :
    r.read st (us ++ rest') = .ok (t, rest') :=
  read_ahead h (.calm hrest)

/-- Behind a block there may be anything. -/
theorem read_block_again {opening : Token}
    (h : blockStatement.read st (opening :: (us ++ rest)) = .ok (t, rest)) (rest' : List Token) :
    blockStatement.read st (opening :: (us ++ rest')) = .ok (t, rest') := by
  obtain ⟨n, hn⟩ : ∃ n, budget (opening :: (us ++ rest)).length = n + 1 := ⟨_, rfl⟩
  rw [read, hn] at h
  obtain ⟨vs, hvs, -, hagain⟩ :=
    readBlock_later (apply_solid st n) (fun _ => True) n opening _ _ h
  obtain rfl : us = vs := List.append_cancel_right hvs
  have happly : apply st (n + 1) .blockStatement (opening :: (us ++ rest')) = .ok (t, rest') :=
    hagain rest' (.calm trivial)
  exact (apply_extends_read st _ _ _ (by rw [happly]; simp)).trans happly

theorem read_begins (h : r.read st ts = .ok p) : Begins st ts :=
  apply_begins st _ r ts p h

theorem read_past (h : r.read st ts = .ok p) : Past 1 ts p.2 :=
  (apply_past st _ r ts p h).mono r.least_pos

/-- **One tag of lookahead.** Of what stands behind the tokens that a rule reads, it looks at no
more than the tag of the first: before two tokens with the same tag, and whatever behind them, it
reads the same tokens and gives the same tree. -/
theorem read_before_same_tag (r : Rule) {next next' : Token}
    (htag : next'.field "tag" = next.field "tag") (more more' : List Token) :
    r.read st (us ++ next :: more) = .ok (t, next :: more) ↔
      r.read st (us ++ next' :: more') = .ok (t, next' :: more') := by
  constructor
  · exact fun h => read_ahead h (.tag htag)
  · exact fun h => read_ahead h (.tag htag.symm)

/-- The tokens of an `if` without `else` that holds a `return` without value. -/
def guardTokens : List Token :=
  [Token.make "if" none 0, Token.make "(" none 2,
    Token.make "<identifier>" (some (.text "ready")) 3, Token.make ")" none 8,
    Token.make "return" none 9]

/-- Their tree. -/
def guardTree : Tree :=
  Tree.branch .returns (Tree.leaf .returns "<identifier>" (.text "ready")) (Tree.giveBack none) none

/-- Before a semicolon neither the `return` nor the `if` goes on, whatever stands behind it. -/
theorem read_before_same_tag_of_guard :
    statement.read .returns (guardTokens ++ [Token.make ";" none 15, Token.ending]) =
        .ok (guardTree, [Token.make ";" none 15, Token.ending]) ∧
      statement.read .returns (guardTokens ++ [Token.make ";" none 40, Token.make "else" none 41]) =
        .ok (guardTree, [Token.make ";" none 40, Token.make "else" none 41]) := by
  have hread : statement.read .returns (guardTokens ++ [Token.make ";" none 15, Token.ending]) =
      .ok (guardTree, [Token.make ";" none 15, Token.ending]) := rfl
  have htag : (Token.make ";" none 40).field "tag" = (Token.make ";" none 15).field "tag" := rfl
  exact ⟨hread, (read_before_same_tag statement htag _ _).1 hread⟩

end Read

end Stepwise.Rule
