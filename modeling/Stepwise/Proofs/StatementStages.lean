import Stepwise.Proofs.ExpressionStages

/-!
# Statements of two stages in step

The rules of statements, run side by side on matching tokens. Statements without control flow
are the same at all stages from `booleans` on; blocks, `if` and `while` are the same from
`blocks` on.

- `Rule.apply_plain`: assignments and expressions are mirrored;
- `Rule.apply_statement`: so are all statements of two stages with blocks.
-/

namespace Stepwise

open Token (headTag Is)

/-! ## Statements without control flow -/

/-- The statement is an assignment or an expression, and its expression is elementary. -/
def Statement.plain (truths : Bool) : Statement → Bool
  | .assign _ e | .expression e => e.elementary truths
  | _ => false

theorem Statement.plain_elementary {truths : Bool} {s : Statement} (h : s.plain truths = true) :
    s.elementary truths = true := by
  cases s with
  | assign | expression => exact h
  | block | branch | loop | giveBack | print => cases h

namespace Rule

section Statements

variable {truths : Bool} {st st' : Stage} {ts ts' : List Token}

/-- Another reading of the same syntax, as part of a larger one. -/
theorem Mirrored.imp {α β γ : Type} {shape : Stage → α → β} {shape' : Stage → γ → β}
    {ok : α → Bool} {ok' : γ → Bool} {size : Nat} {y : Except Fault (β × List Token)}
    {p : β × List Token} (h : Mirrored truths st st' shape ok size y p) (f : α → γ)
    (hshape : ∀ st a, shape' st (f a) = shape st a) (hok : ∀ a, ok a = true → ok' (f a) = true) :
    Mirrored truths st st' shape' ok' size y p := by
  intro huncalled
  obtain ⟨a, rest', ha, hp, hy, hrest⟩ := h huncalled
  exact ⟨f a, rest', hok a ha, hp.trans (hshape st a).symm, by rw [hy, hshape], hrest⟩

/-- A name at the head of one list is at the head of the other. -/
theorem Aligned.name (h : Aligned truths st st' ts ts')
    (hname : Token.headTag ts = .ok (.text st.nameTag)) :
    ∃ x : Identifier, Token.headTag ts' = .ok (.text st'.nameTag) ∧
      headValue ts = .ok (.text x.text) ∧ headValue ts' = .ok (.text x.text) := by
  obtain ⟨t, rest, rfl, ht⟩ := exists_of_headTag hname
  obtain ⟨t', rest', hmatch, -, rfl⟩ := List.forall₂_cons_left_iff.1 h
  cases hmatch with
  | other hv _ _ hne =>
    -- a token that matches as no literal does not have the tag of names
    have hv' := Except.ok.inj (hv.symm.trans ht)
    subst hv'
    simpa [Value.isText, Stage.nameTag] using hne "identifier" (by decide)
  | @literal e _ v he hleaf htag htag' hvalue hvalue' =>
    have htext := Value.text.inj (Except.ok.inj (htag.symm.trans ht))
    obtain rfl := st.literalTag_injective _ (Expression.literal?_mem hleaf) "identifier"
      (by decide) htext
    cases e with
    | name x =>
      cases hleaf
      exact ⟨x, htag', hvalue, hvalue'⟩
    | _ => simp [Expression.literal?] at hleaf

/-- An assignment, from its name, its sign and its expression. -/
theorem read_assignment_of_name {x : Identifier} {e : Tree} {rest mid : List Token}
    (hname : Token.headTag ts = .ok (.text st.nameTag)) (hvalue : headValue ts = .ok (.text x.text))
    (hsign : ∀ what, demand "=" what (ts.drop 1) = .ok mid)
    (he : expression.read st mid = .ok (e, rest)) :
    assignment.read st ts = .ok (Tree.assign st (x.tree st) e, rest) := by
  rw [read_eq]
  simp [step, readAssignment, nextIs_of_headTag hname, Value.isText, hvalue, hsign, he,
    Identifier.tree, -List.drop_one]

/-- A name with the sign behind it starts an assignment. -/
theorem read_statement_of_name (hst : st.has .assignments = true)
    (hname : Token.headTag ts = .ok (.text st.nameTag))
    (hsign : nextIs "=" (ts.drop 1) = .ok true) :
    statement.read st ts = assignment.read st ts := by
  have hne : ∀ tag ∈ ["if", "while", "function", "return", "print", "\x7b"], st.nameTag ≠ tag := by
    cases st <;> decide
  simp only [List.forall_mem_cons] at hne
  rw [read_eq]
  simp [step, readStatement, hname, Value.isText, hne, hst, hsign, -List.drop_one]

/-- Where nothing announces another statement, it is an expression. -/
theorem read_statement_of_stops (hst : st.has .assignments = true)
    (hstops : Stops expression.barred ts)
    (hsign : Token.headTag ts = .ok (.text st.nameTag) → nextIs "=" (ts.drop 1) = .ok false) :
    statement.read st ts = expression.read st ts := by
  obtain ⟨v, hv, hne⟩ := hstops
  have hbarred : ∀ tag ∈ expression.barred, v.isText tag = false := fun tag htag =>
    Bool.eq_false_iff.2 fun heq => hne tag htag (Value.eq_text_of_isText heq)
  simp only [show expression.barred = ["if", "while", "function", "return", "print", "\x7b", "\x7d",
    ";", ")"] from rfl, List.forall_mem_cons] at hbarred
  rw [read_eq]
  by_cases hname : v.isText st.nameTag = true
  · have hnext := hsign (headTag_of_isText hv hname)
    simp [step, readStatement, hv, hbarred, hst, hnext, -List.drop_one]
  · simp [step, readStatement, hv, hbarred, hname]

variable {rule : Rule → List Token → Reading}
  (hexpression : InStep truths st st' rule .expression .expression)

include hexpression

/-- An assignment in step: the same name, and an expression in step. -/
theorem readAssignment_mirrored (h : Aligned truths st st' ts ts') :
    Yields (Mirrored truths st st' Statement.tree (Statement.plain truths) ts'.length
      (assignment.read st' ts')) (readAssignment st rule ts) := by
  refine .bind fun b hb => .ite (fun _ => .error _) fun hbf => .bind fun v hv => ?_
  have hname : headTag ts = .ok (.text st.nameTag) := headTag_of_nextIs hb (by simpa using hbf)
  obtain ⟨x, hname', hvalue, hvalue'⟩ := h.name hname
  cases hvalue.symm.trans hv
  refine .bind fun mid hmid => .bind ?_
  rintro ⟨e, rest⟩ he
  refine .pure fun huncalled => ?_
  obtain ⟨mid', hdemand, haligned, hlength⟩ :=
    Aligned.demand (List.forall₂_drop 1 h) (by decide) hmid
  obtain ⟨a, rest', ha, rfl, hy, hrest, hlength'⟩ := hexpression mid mid' haligned _ he huncalled
  refine ⟨.assign x a, rest', ha, rfl, read_assignment_of_name hname' hvalue' hdemand hy, hrest, ?_⟩
  rw [List.length_drop] at hlength
  omega

/-- A condition in step, whatever a missing parenthesis would be reported as. -/
theorem readCondition_mirrored (closing : String) (h : Aligned truths st st' ts ts') :
    Yields (fun p => ∃ (e : Expression) (rest' : List Token), e.elementary truths = true ∧
      p.1 = e.tree st ∧
      (∀ closing, readCondition (Rule.read st') closing ts' = .ok (e.tree st', rest')) ∧
      Aligned truths st st' p.2 rest' ∧ rest'.length < ts'.length)
      (readCondition rule closing ts) := by
  refine .bind fun ts₁ hopen => .bind ?_
  rintro ⟨c, ts₂⟩ hc
  refine .bind fun ts₃ hclose => .pure ?_
  obtain ⟨ts₁', hopen', hts₁, hlength₁⟩ := h.demand (by decide) hopen
  obtain ⟨t, hts, ht⟩ := demand_token _ _ _ _ hclose
  obtain ⟨e, ts₂', he, rfl, hy, hts₂, hlength₂⟩ :=
    hexpression ts₁ ts₁' hts₁ _ hc (.of_headTag (by rw [hts]; exact ht) (by decide))
  obtain ⟨ts₃', hclose', hts₃, hlength₃⟩ := hts₂.demand (by decide) hclose
  refine ⟨e, ts₃', he, rfl, fun closing' => ?_, hts₃, by omega⟩
  simp [readCondition, hopen', hy, hclose']

omit hexpression

/-- Expressions in step, between any two stages. -/
theorem apply_expression (hst : st.has .booleans = true) (hst' : st'.has .booleans = true)
    (hf : st.has .functions = false) (hf' : st' ≠ .functions) (n : Nat) :
    InStep truths st st' (apply st n) .expression .expression := by
  intro ts ts' h
  exact apply_formula hst hst' hf hf' n (by decide) h

/-- Assignments in step, between any two stages. -/
theorem apply_assignment (hst : st.has .booleans = true) (hst' : st'.has .booleans = true)
    (hf : st.has .functions = false) (hf' : st' ≠ .functions) (n : Nat)
    (h : Aligned truths st st' ts ts') :
    Yields (Mirrored truths st st' Statement.tree (Statement.plain truths) ts'.length
      (assignment.read st' ts')) (apply st n .assignment ts) := by
  cases n with
  | zero => exact .error _
  | succ n => exact readAssignment_mirrored (apply_expression hst hst' hf hf' n) h

/-- **Statements without control flow in step**: assignments and expressions. -/
theorem apply_plain (hst : st.has .booleans = true) (hst' : st'.has .booleans = true)
    (hf : st.has .functions = false) (hf' : st' ≠ .functions) (n : Nat)
    (h : Aligned truths st st' ts ts') (hwords : Stops ["if", "while"] ts)
    (hblock : st.has .blocks = true → Stops ["\x7b"] ts) :
    Yields (Mirrored truths st st' Statement.tree (Statement.plain truths) ts'.length
      (statement.read st' ts')) (apply st n .statement ts) := by
  cases n with
  | zero => exact .error _
  | succ n =>
    have hassignments : st.has .assignments = true := Stage.has_of_rank_le hst (by decide)
    have hassignments' : st'.has .assignments = true := Stage.has_of_rank_le hst' (by decide)
    obtain ⟨v, hv, hne⟩ := hwords
    obtain ⟨v', hv', hsame⟩ := h.headTag hv
    have hfalse : ∀ tag ∈ ["if", "while"], v.isText tag = false := fun tag htag =>
      Bool.eq_false_iff.2 fun heq => hne tag htag (Value.eq_text_of_isText heq)
    have hbrace : (v.isText "\x7b" && st.has .blocks) = false := by
      by_contra hopen
      simp only [Bool.not_eq_false, Bool.and_eq_true] at hopen
      obtain ⟨w, hw, hnot⟩ := hblock hopen.2
      cases hv.symm.trans hw
      exact hnot _ (by simp) (Value.eq_text_of_isText hopen.1)
    -- an expression is read as such, unless it is a name with an equals sign behind it
    have hexpression : (Token.headTag ts' = .ok (.text st'.nameTag) →
        nextIs "=" (ts'.drop 1) = .ok false) →
        Yields (Mirrored truths st st' Statement.tree (Statement.plain truths) ts'.length
          (statement.read st' ts')) (apply st n .expression ts) := by
      intro hsign p hp
      have hstops := apply_starts hf n (r := .expression) (by decide) ts p hp
      rw [read_statement_of_stops hassignments' (h.stops (barred_subset_signs _) hstops) hsign]
      exact (apply_expression hst hst' hf hf' n ts ts' h p hp).imp .expression (fun _ _ => rfl)
        fun _ he => he
    rw [apply]
    refine .bind fun w hw => ?_
    cases hv.symm.trans hw
    simp only [hfalse "if" (by simp), hfalse "while" (by simp), hf, hbrace, Bool.and_false,
      Bool.false_and, Bool.false_eq_true, if_false]
    refine .ite (fun hx => .bind fun b hb => .ite (fun hbt => ?_) fun hbf => ?_) fun hx => ?_
    · subst hbt
      have hsign := Aligned.nextIs (List.forall₂_drop 1 h) (by decide) hb
      obtain ⟨x, hname, -⟩ := h.name (headTag_of_isText hv (Bool.and_eq_true_iff.1 hx).1)
      rw [read_statement_of_name hassignments' hname hsign]
      exact apply_assignment hst hst' hf hf' n h
    · refine hexpression fun _ => Aligned.nextIs (List.forall₂_drop 1 h) (by decide) ?_
      rw [hb, Bool.eq_false_iff.2 hbf]
    · refine hexpression fun hname => absurd ?_ hx
      rw [hname] at hv'
      cases hv'
      have hliteral := hsame.literal "identifier" (by decide)
      rw [hassignments, Bool.and_true]
      exact hliteral.symm.trans (by simp [Value.isText, Stage.nameTag])

end Statements

/-! ## Blocks and control flow -/

/-- As `Mirrored`, for elementary statements. -/
abbrev MirroredStatement (truths : Bool) (st st' : Stage) (size : Nat) (y : Reading)
    (p : Tree × List Token) : Prop :=
  Mirrored truths st st' Statement.tree (Statement.elementary truths) size y p

section Blocks

variable {truths : Bool} {st st' : Stage} {ts ts' : List Token}
  {rule : Rule → List Token → Reading}

/-- Behind a statement of a block stands a semicolon, or the block has no more statements. -/
theorem moreStatements_uncalled {n : Nat} {p : List Tree × List Token}
    (h : moreStatements rule n ts = .ok p) (hp : Uncalled st' p.2) : Uncalled st' ts := by
  cases n with
  | zero => cases h
  | succ n =>
    rw [moreStatements] at h
    cases hb : nextIs ";" ts with
    | error e =>
      rw [hb] at h
      cases h
    | ok b =>
      cases b with
      | true => exact .of_nextIs hb (by decide)
      | false =>
        rw [hb] at h
        cases h
        exact hp

section Parts

variable
  (hexpression : InStep truths st st' rule .expression .expression)
  (hstatement : ∀ ts ts', Aligned truths st st' ts ts' → Yields
    (MirroredStatement truths st st' ts'.length (statement.read st' ts')) (rule .statement ts))

include hstatement

/-- The statements of a block in step. The induction is on the first reader's budget; the second
one's is larger than what is left to read. -/
theorem moreStatements_mirrored (n k : Nat) (h : Aligned truths st st' ts ts')
    (hk : ts'.length < k) :
    Yields (Mirrored truths st st' Statement.trees (Statement.allElementary truths)
      (ts'.length + 1) (moreStatements (Rule.read st') k ts')) (moreStatements rule n ts) := by
  induction n generalizing k ts ts' with
  | zero => exact .error _
  | succ n ih =>
    obtain ⟨k, rfl⟩ : ∃ j, k = j + 1 := ⟨k - 1, by omega⟩
    conv => arg 2; rw [moreStatements]
    refine .bind fun b hb => .ite (fun hbt => ?_) fun hbf => ?_
    · subst hbt
      have hb' := h.nextIs (by decide) hb
      refine .bind fun ts₁ hskip => .bind fun c hc => ?_
      obtain ⟨ts₁', hskip', hts₁⟩ := h.skipSemicolons hskip
      -- a semicolon was skipped, which pays for the second reader's round
      have hlength₁ : ts₁'.length + 1 ≤ ts'.length := by
        have hpast := skipSemicolons_past hb'
        rw [hskip'] at hpast
        exact hpast.length
      have hc' := hts₁.nextIs (by decide) hc
      refine .ite (fun hct p hp huncalled => ?_) fun hcf => .bind ?_
      -- the block ends behind its semicolons
      · subst hct
        obtain ⟨ss, rest', hss, hshape, hy, hrest, hlength⟩ :=
          ih k hts₁ (by omega) p hp huncalled
        refine ⟨ss, rest', hss, hshape, ?_, hrest, by omega⟩
        rw [moreStatements]
        simp [hb', hskip', hc', hy]
      · rintro ⟨s, ts₂⟩ hs
        refine .bind fun d hd => .bind fun e he => .ite (fun _ => .error _) fun hfollowed => ?_
        refine .bind ?_
        rintro ⟨more, ts₃⟩ hmore
        refine .pure fun huncalled => ?_
        obtain rfl := Bool.eq_false_iff.2 hcf
        -- another statement stands there, and behind it a semicolon or the brace
        have hneither : (!d && !e) = false := Bool.eq_false_iff.2 hfollowed
        -- neither is a parenthesis, so that the statement is read alike
        have hts₂ : Uncalled st' ts₂ := by
          cases d with
          | true => exact .of_nextIs hd (by decide)
          | false =>
            rw [show e = true by simpa using hneither] at he
            exact .of_nextIs he (by decide)
        obtain ⟨a, ts₂', ha, rfl, hy, haligned, hlength⟩ := hstatement ts₁ ts₁' hts₁ _ hs hts₂
        obtain ⟨ss, ts₃', hss, hshape, hy', hrest, hlength'⟩ :=
          ih k haligned (by omega) _ hmore huncalled
        have hd' := haligned.nextIs (by decide) hd
        have he' := haligned.nextIs (by decide) he
        refine ⟨a :: ss, ts₃', by simp [Statement.allElementary, ha, hss], ?_, ?_, hrest, by omega⟩
        · exact congrArg (List.cons _) hshape
        · rw [moreStatements]
          simp only [hb', hskip', hc', hy, hd', he', hneither, hy', ok_bind, pure_eq_ok, if_true,
            Bool.false_eq_true, if_false, Statement.trees]
    · obtain rfl := Bool.eq_false_iff.2 hbf
      refine .pure fun _ => ⟨[], ts', rfl, rfl, ?_, h, Nat.lt_succ_self _⟩
      rw [moreStatements]
      simp [h.nextIs (by decide) hb, Statement.trees]

/-- A block in step. -/
theorem readBlock_mirrored (n : Nat) (h : Aligned truths st st' ts ts') :
    Yields (MirroredStatement truths st st' ts'.length (blockStatement.read st' ts'))
      (readBlock rule n ts) := by
  refine .bind fun ts₁ hopen => .bind fun ts₂ hskip => .bind fun b hb => ?_
  obtain ⟨ts₁', hopen', hts₁, hlength₁⟩ := h.skip (by decide) hopen
  obtain ⟨ts₂', hskip', hts₂⟩ := hts₁.skipSemicolons hskip
  have hlength₂ : ts₂'.length ≤ ts₁'.length := by
    have hpast := skipSemicolons_concludes ts₁'
    rw [hskip'] at hpast
    exact hpast.length
  have hb' := hts₂.nextIs (by decide) hb
  refine .ite (fun hbt => .pure fun _ => ?_) fun hbf => .bind ?_
  · subst hbt
    refine ⟨.block [], ts₂'.drop 1, rfl, rfl, ?_, List.forall₂_drop 1 hts₂, ?_⟩
    · rw [read_eq]
      simp [step, readBlock, hopen', hskip', hb', Statement.tree, Statement.trees]
    · rw [List.length_drop]
      omega
  · obtain rfl := Bool.eq_false_iff.2 hbf
    rintro ⟨s, ts₃⟩ hs
    refine .bind ?_
    rintro ⟨more, ts₄⟩ hmore
    refine .bind fun ts₅ hclose => .pure fun _ => ?_
    obtain ⟨t, hts, ht⟩ := skip_token _ _ _ hclose
    -- the closing brace is no parenthesis
    have hts₄ : Uncalled st' ts₄ := .of_headTag (by rw [hts]; exact ht) (by decide)
    obtain ⟨a, ts₃', ha, rfl, hy, haligned₃, hlength₃⟩ :=
      hstatement ts₂ ts₂' hts₂ _ hs (moreStatements_uncalled hmore hts₄)
    obtain ⟨ss, ts₄', hss, hshape, hy', haligned₄, hlength₄⟩ :=
      moreStatements_mirrored hstatement n (budget ts'.length) haligned₃
        (by unfold budget; omega) _ hmore hts₄
    obtain ⟨ts₅', hclose', haligned₅, hlength₅⟩ := haligned₄.skip (by decide) hclose
    have helementary : (Statement.block (a :: ss)).elementary truths = true := by
      simp [Statement.elementary, Statement.allElementary, ha, hss]
    refine ⟨.block (a :: ss), ts₅', helementary, ?_, ?_, haligned₅, by omega⟩
    · exact congrArg (fun trees => Tree.block (_ :: trees)) hshape
    · rw [read_eq]
      simp [step, readBlock, hopen', hskip', hb', hy, hy', hclose', Statement.tree, Statement.trees]

include hexpression

/-- An `if` in step, with an `else` or without. -/
theorem readIf_mirrored (hst : st.has .blocks = true) (hst' : st'.has .blocks = true)
    (h : Aligned truths st st' ts ts') :
    Yields (MirroredStatement truths st st' ts'.length (ifStatement.read st' ts'))
      (readIf st rule ts) := by
  refine .bind fun ts₁ hskip => ?_
  obtain ⟨ts₁', hskip', hts₁, hlength₁⟩ := h.skip (by decide) hskip
  refine (readCondition_mirrored hexpression _ hts₁).andThen ?_
  rintro ⟨c, ts₂⟩ ⟨e, ts₂', he, rfl, hcondition, hts₂, hlength₂⟩
  refine .bind ?_
  rintro ⟨s, ts₃⟩ hs
  simp only [hst, if_true]
  refine .bind fun b hb => .ite (fun hbt => .bind ?_) fun hbf => .pure fun huncalled => ?_
  · rintro ⟨a, ts₄⟩ ha
    subst hbt
    refine .pure fun huncalled => ?_
    -- behind the first statement stands `else`, which is no parenthesis
    obtain ⟨s, ts₃', hselem, rfl, hy, hts₃, hlength₃⟩ :=
      hstatement ts₂ ts₂' hts₂ _ hs (.of_nextIs hb (by decide))
    obtain ⟨a, ts₄', haelem, rfl, hy', hts₄, hlength₄⟩ :=
      hstatement _ _ (List.forall₂_drop 1 hts₃) _ ha huncalled
    rw [List.length_drop] at hlength₄
    refine ⟨.branch e s (some a), ts₄', by simp [Statement.elementary, he, hselem, haelem], rfl, ?_,
      hts₄, by omega⟩
    rw [read_eq]
    simp [step, readIf, hskip', hcondition, hy, hst', hts₃.nextIs (by decide) hb, hy',
      Statement.tree, -List.drop_one]
  · obtain rfl := Bool.eq_false_iff.2 hbf
    obtain ⟨s, ts₃', hselem, rfl, hy, hts₃, hlength₃⟩ := hstatement ts₂ ts₂' hts₂ _ hs huncalled
    refine ⟨.branch e s none, ts₃', by simp [Statement.elementary, he, hselem], rfl, ?_, hts₃,
      by omega⟩
    rw [read_eq]
    simp [step, readIf, hskip', hcondition, hy, hst', hts₃.nextIs (by decide) hb, Statement.tree]

/-- A `while` in step. -/
theorem readWhile_mirrored (h : Aligned truths st st' ts ts') :
    Yields (MirroredStatement truths st st' ts'.length (whileStatement.read st' ts'))
      (readWhile st rule ts) := by
  refine .bind fun ts₁ hskip => ?_
  obtain ⟨ts₁', hskip', hts₁, hlength₁⟩ := h.skip (by decide) hskip
  refine (readCondition_mirrored hexpression _ hts₁).andThen ?_
  rintro ⟨c, ts₂⟩ ⟨e, ts₂', he, rfl, hcondition, hts₂, hlength₂⟩
  refine .bind ?_
  rintro ⟨s, ts₃⟩ hs
  refine .pure fun huncalled => ?_
  obtain ⟨s, ts₃', hselem, rfl, hy, hts₃, hlength₃⟩ := hstatement ts₂ ts₂' hts₂ _ hs huncalled
  refine ⟨.loop e s, ts₃', by simp [Statement.elementary, he, hselem], rfl, ?_, hts₃, by omega⟩
  rw [read_eq]
  simp [step, readWhile, hskip', hcondition, hy, Statement.tree]

end Parts

/-- The statements that their first word announces. -/
theorem readStatement_keyword (hst : st.has .blocks = true) {tag : String} {r : Rule}
    (htag : (tag, r) ∈ [("if", ifStatement), ("while", whileStatement), ("\x7b", blockStatement)])
    (h : headTag ts = .ok (.text tag)) : readStatement st rule ts = rule r ts := by
  have hconditions : st.has .conditions = true := Stage.has_of_rank_le hst (by decide)
  simp only [List.mem_cons, List.not_mem_nil, or_false, Prod.mk.injEq] at htag
  rcases htag with ⟨rfl, rfl⟩ | ⟨rfl, rfl⟩ | ⟨rfl, rfl⟩ <;>
    simp [readStatement, h, Value.isText, hst, hconditions]

/-- The rules of statements without functions. -/
def elementaryStatements : List Rule :=
  [.statement, .ifStatement, .whileStatement, .blockStatement]

/-- **Statements in step**: of two stages with blocks, the later one gives the tree of the same
statement. -/
theorem apply_statement (hst : st.has .blocks = true) (hst' : st'.has .blocks = true)
    (hf : st.has .functions = false) (hf' : st' ≠ .functions) (n : Nat) {r : Rule}
    (hr : r ∈ elementaryStatements) (h : Aligned truths st st' ts ts') :
    Yields (MirroredStatement truths st st' ts'.length (r.read st' ts')) (apply st n r ts) := by
  have hbooleans : st.has .booleans = true := Stage.has_of_rank_le hst (by decide)
  have hbooleans' : st'.has .booleans = true := Stage.has_of_rank_le hst' (by decide)
  induction n generalizing r ts ts' with
  | zero => exact .error _
  | succ n ih =>
    have hexpression : InStep truths st st' (apply st n) .expression .expression :=
      apply_expression hbooleans hbooleans' hf hf' n
    have hstatement : ∀ ts ts', Aligned truths st st' ts ts' → Yields
        (MirroredStatement truths st st' ts'.length (statement.read st' ts'))
        (apply st n .statement ts) :=
      fun ts ts' h => ih (by decide) h
    cases r with
    | ifStatement => exact readIf_mirrored hexpression hstatement hst hst' h
    | whileStatement => exact readWhile_mirrored hexpression hstatement h
    | blockStatement => exact readBlock_mirrored hstatement n h
    | statement =>
      -- a keyword or brace is the next tag of both lists and leads both to the same rule
      have hkeyword : ∀ {tag : String} {r : Rule}, r ∈ elementaryStatements →
          (tag, r) ∈ [("if", ifStatement), ("while", whileStatement), ("\x7b", blockStatement)] →
          tag ∈ signs → headTag ts = .ok (.text tag) →
          Yields (MirroredStatement truths st st' ts'.length (statement.read st' ts'))
            (apply st (n + 1) .statement ts) := by
        intro tag r hr hmem hsign htag
        have htag' : headTag ts' = .ok (.text tag) :=
          headTag_of_nextIs (h.nextIs hsign (nextIs_of_headTag htag tag)) (by simp [Value.isText])
        have hy : statement.read st' ts' = r.read st' ts' := by
          rw [read_eq]
          exact readStatement_keyword hst' hmem htag'
        have hx : apply st (n + 1) .statement ts = apply st n r ts :=
          readStatement_keyword hst hmem htag
        rw [hx, hy]
        exact ih hr h
      -- without one of them the statement is an assignment or an expression
      obtain hplain | ⟨tag, hmem, htag⟩ | ⟨e, hhead⟩ :=
        stops_or_headTag ["if", "while", "\x7b"] ts
      · intro p hp
        refine Mirrored.imp ?_ id (fun _ _ => rfl) fun _ => Statement.plain_elementary
        exact apply_plain hbooleans hbooleans' hf hf' (n + 1) h (hplain.mono (by simp))
          (fun _ => hplain.mono (by simp)) p hp
      · simp only [List.mem_cons, List.not_mem_nil, or_false] at hmem
        rcases hmem with rfl | rfl | rfl
        · exact hkeyword (r := .ifStatement) (by decide) (by simp) (by decide) htag
        · exact hkeyword (r := .whileStatement) (by decide) (by simp) (by decide) htag
        · exact hkeyword (r := .blockStatement) (by decide) (by simp) (by decide) htag
      · rw [apply, step, readStatement, hhead]
        exact .error _
    | _ => exact absurd hr (by decide)

end Blocks

end Rule

end Stepwise
