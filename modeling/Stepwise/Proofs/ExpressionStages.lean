import Stepwise.Proofs.Elementary
import Stepwise.Proofs.ParserReaders
import Stepwise.Proofs.ParserSound

/-!
# Expressions of two stages in step

A later stage reads what an earlier one reads. The two parsers are run side by side on
token lists that match: literals hold the same value, and every other token that a rule
looks for is the same. Whenever the earlier parser gives a tree, it is the tree of an
elementary expression, and the later parser gives the tree of the same expression.

- `Token.Matches`: two tokens that the parsers take for the same;
- `Rule.Uncalled`: no parenthesis follows. From `returns` on one would make a call of what
  stands before it, and this is all that a later stage reads differently;
- `Rule.Mirrored`: the second reading gives the same syntax as the first, with matching
  tokens behind it. `Rule.InStep` says so of all readings with a rule of expressions;
- `Rule.apply_formula`: all rules of expressions are mirrored.
-/

namespace Stepwise

open Token (headTag Is)

/-! ## Matching tokens -/

/-- For a literal: the word that its tag is made of, and the value it holds. -/
def Expression.literal? : Expression → Option (String × Value)
  | .number v => some ("number", v.value)
  | .boolean b => some ("boolean", Value.ofTruth b)
  | .name x => some ("identifier", .text x.text)
  | _ => none

/-- The words for the three kinds of literals. -/
def Stage.literals : List String := ["number", "boolean", "identifier"]

/-- The words and signs that a rule may look for besides literals. -/
def Rule.signs : List String :=
  ["if", "while", "else", "function", "return", "print", "\x7b", "\x7d", "(", ")", ";", "=", "!"]
    ++ operators

theorem Expression.literal?_tree {e : Expression} {word : String} {v : Value}
    (h : e.literal? = some (word, v)) (st : Stage) :
    e.tree st = Tree.leaf st (st.literalTag word) v := by
  cases e <;> cases h <;> rfl

theorem Expression.literal?_mem {e : Expression} {word : String} {v : Value}
    (h : e.literal? = some (word, v)) : word ∈ Stage.literals := by
  cases e <;> cases h <;> decide

namespace Stage

theorem literalTag_not_mem_signs (st : Stage) :
    ∀ word ∈ literals, st.literalTag word ∉ Rule.signs := by
  cases st <;> decide

theorem literalTag_injective (st : Stage) : ∀ word ∈ literals, ∀ word' ∈ literals,
    st.literalTag word = st.literalTag word' → word = word' := by
  cases st <;> decide

end Stage

/-- Two tags, of tokens at two stages, that are the same for every rule. -/
structure Value.SameTag (st st' : Stage) (v v' : Value) : Prop where
  sign : ∀ tag ∈ Rule.signs, v'.isText tag = v.isText tag
  literal : ∀ word ∈ Stage.literals, v'.isText (st'.literalTag word) = v.isText (st.literalTag word)

/-- Two tokens that parsers take for the same: a literal with its value, or any other token.
`truths` says whether truth values are let pass. -/
inductive Token.Matches (truths : Bool) (st st' : Stage) : Token → Token → Prop
  | literal {t t' : Token} {e : Expression} {word : String} {v : Value} :
      e.elementary truths = true → e.literal? = some (word, v) →
      Is (st.literalTag word) t → Is (st'.literalTag word) t' →
      t.field "value" = .ok v → t'.field "value" = .ok v → Matches truths st st' t t'
  | other {t t' : Token} {v v' : Value} :
      t.field "tag" = .ok v → t'.field "tag" = .ok v' → v.SameTag st st' v' →
      (∀ word ∈ Stage.literals, v.isText (st.literalTag word) = false) → Matches truths st st' t t'

/-- Matching tokens both have a tag, and the two tags are the same up to the names of literals. -/
theorem Token.Matches.tags {truths : Bool} {st st' : Stage} {t t' : Token}
    (h : Matches truths st st' t t') :
    ∃ v v', t.field "tag" = .ok v ∧ t'.field "tag" = .ok v' ∧ v.SameTag st st' v' := by
  cases h with
  | other ht ht' hsame _ => exact ⟨_, _, ht, ht', hsame⟩
  | literal _ hleaf ht ht' _ _ =>
    have hword := Expression.literal?_mem hleaf
    refine ⟨_, _, ht, ht', fun tag htag => ?_, fun word' hword' => ?_⟩
    · -- no rule looks for a literal by a sign
      have hne : ∀ s : Stage, s.literalTag _ ≠ tag := fun s heq =>
        s.literalTag_not_mem_signs _ hword (heq ▸ htag)
      simp [Value.isText, hne]
    · have hiff : ∀ s : Stage, s.literalTag _ = s.literalTag word' ↔ _ = word' := fun s =>
        ⟨s.literalTag_injective _ hword _ hword', fun heq => heq ▸ rfl⟩
      simp [Value.isText, beq_eq_decide, hiff]

namespace Rule

/-- Lists of matching tokens. -/
abbrev Aligned (truths : Bool) (st st' : Stage) : List Token → List Token → Prop :=
  List.Forall₂ (Token.Matches truths st st')

section Aligned

variable {truths : Bool} {st st' : Stage} {ts ts' : List Token}

/-- The next tags correspond. -/
theorem Aligned.headTag {v : Value} (h : Aligned truths st st' ts ts')
    (hv : headTag ts = .ok v) : ∃ v', Token.headTag ts' = .ok v' ∧ v.SameTag st st' v' := by
  cases h with
  | nil => cases hv
  | cons ht _ =>
    obtain ⟨w, v', hw, hv', hsame⟩ := ht.tags
    cases hw.symm.trans hv
    exact ⟨v', hv', hsame⟩

/-- A sign is next in both lists or in neither. -/
theorem Aligned.nextIs {tag : String} {b : Bool} (h : Aligned truths st st' ts ts')
    (htag : tag ∈ signs) (hb : nextIs tag ts = .ok b) : Rule.nextIs tag ts' = .ok b := by
  cases hv : Token.headTag ts with
  | error e =>
    rw [Rule.nextIs, hv] at hb
    cases hb
  | ok v =>
    obtain ⟨v', hv', hsame⟩ := h.headTag hv
    rw [nextIs_of_headTag hv] at hb
    rw [nextIs_of_headTag hv', hsame.sign tag htag]
    exact hb

/-- What is not next in the one list is not next in the other. -/
theorem Aligned.stops {tags : List String} (h : Aligned truths st st' ts ts')
    (htags : tags ⊆ signs) (hts : Stops tags ts) : Stops tags ts' := by
  obtain ⟨v, hv, hne⟩ := hts
  obtain ⟨v', hv', hsame⟩ := h.headTag hv
  refine ⟨v', hv', fun tag htag heq => hne tag htag ?_⟩
  refine Value.eq_text_of_isText ?_
  rw [← hsame.sign tag (htags htag), heq]
  simp [Value.isText]

/-- A sign at the head of one list is at the head of the other. -/
theorem Aligned.of_is {t : Token} {tag : String} (h : Aligned truths st st' (t :: ts) ts')
    (htag : tag ∈ signs) (ht : Is tag t) :
    ∃ t' rest', ts' = t' :: rest' ∧ Is tag t' ∧ Aligned truths st st' ts rest' := by
  obtain ⟨t', rest', hmatch, hrest, rfl⟩ := List.forall₂_cons_left_iff.1 h
  have hnext : Rule.nextIs tag (t' :: rest') = .ok true := h.nextIs htag (nextIs_of_is ht)
  exact ⟨t', rest', rfl, headTag_of_nextIs hnext rfl, hrest⟩

/-- A sign that the first reading skips, the second skips too, and the lists stay aligned. -/
theorem Aligned.skip {tag : String} {rest : List Token} (h : Aligned truths st st' ts ts')
    (htag : tag ∈ signs) (hskip : skip tag ts = .ok rest) :
    ∃ rest', Rule.skip tag ts' = .ok rest' ∧ Aligned truths st st' rest rest' ∧
      rest'.length + 1 = ts'.length := by
  obtain ⟨t, rfl, ht⟩ := skip_token tag ts rest hskip
  obtain ⟨t', rest', rfl, ht', hrest⟩ := h.of_is htag ht
  exact ⟨rest', skip_of_is ht', hrest, rfl⟩

/-- A sign that the first reading demands is there in the second, under whatever name a missing one
would be reported. -/
theorem Aligned.demand {tag what : String} {rest : List Token} (h : Aligned truths st st' ts ts')
    (htag : tag ∈ signs) (hdemand : demand tag what ts = .ok rest) :
    ∃ rest', (∀ what', Rule.demand tag what' ts' = .ok rest') ∧ Aligned truths st st' rest rest' ∧
      rest'.length + 1 = ts'.length := by
  obtain ⟨t, rfl, ht⟩ := demand_token tag what ts rest hdemand
  obtain ⟨t', rest', rfl, ht', hrest⟩ := h.of_is htag ht
  exact ⟨rest', demand_of_is ht', hrest, rfl⟩

/-- Skipping semicolons keeps the lists aligned. -/
theorem Aligned.skipSemicolons {rest : List Token} (h : Aligned truths st st' ts ts')
    (hskip : skipSemicolons ts = .ok rest) :
    ∃ rest', Rule.skipSemicolons ts' = .ok rest' ∧ Aligned truths st st' rest rest' := by
  induction h with
  | nil => cases hskip
  | @cons t t' ts ts' ht hts ih =>
    obtain ⟨v, v', hv, hv', hsame⟩ := ht.tags
    have hsign := hsame.sign ";" (by decide)
    rw [Rule.skipSemicolons, hv, ok_bind] at hskip
    rw [Rule.skipSemicolons, hv', ok_bind, hsign]
    by_cases hs : v.isText ";" = true
    · rw [if_pos hs] at hskip ⊢
      exact ih hskip
    · rw [if_neg hs] at hskip ⊢
      cases hskip
      exact ⟨t' :: ts', rfl, .cons ht hts⟩

end Aligned

/-! ## What expressions start with -/

/-- The rules of expressions without functions and calls. -/
def formulas : List Rule :=
  [.expression, .disjunction, .conjunction, .negation, .comparison, .sum, .product, .factor]

/-- The words and signs with which none of these rules starts, and those inside a negation do
not start with `!` either. -/
def barred (r : Rule) : List String :=
  (if r ∈ [.comparison, .sum, .product, Rule.factor] then ["!"] else []) ++
    ["if", "while", "function", "return", "print", "\x7b", "\x7d", ";", ")"]

theorem barred_subset_signs (r : Rule) : r.barred ⊆ signs := by
  cases r <;> decide

/-- A level of operators: its operand is a rule of expressions that starts with no more than the
level does, and each operator is that of an operation. -/
theorem level_formulas {r operand : Rule} {tags : List String}
    (h : r.level? = some (operand, tags)) :
    operand ∈ formulas ∧ r.barred ⊆ operand.barred ∧ "(" ∉ tags ∧ tags ⊆ signs ∧
      ∀ tag ∈ tags, ∃ op : Operator, op.sign = tag := by
  have hsigns : ∀ tag ∈ operators, ∃ op : Operator, op.sign = tag := by
    simpa [operators] using ⟨⟨.or, rfl⟩, ⟨.and, rfl⟩, ⟨.less, rfl⟩, ⟨.greater, rfl⟩,
      ⟨.lessEqual, rfl⟩, ⟨.greaterEqual, rfl⟩, ⟨.equal, rfl⟩, ⟨.unequal, rfl⟩, ⟨.plus, rfl⟩,
      ⟨.minus, rfl⟩, ⟨.times, rfl⟩, ⟨.divide, rfl⟩⟩
  have htags := (Grammar.level_isExpression h).2.2
  refine ⟨?_, ?_, ?_, List.Subset.trans htags (List.subset_append_right _ _),
    fun tag ht => hsigns tag (htags ht)⟩
  all_goals cases r <;> cases h <;> decide

theorem Stops.of_headTag {tag : String} {tags : List String} {ts : List Token}
    (h : headTag ts = .ok (.text tag)) (htag : tag ∉ tags) : Stops tags ts := by
  obtain ⟨t, rest, rfl, ht⟩ := exists_of_headTag h
  exact .of_is ht htag

section Starts

variable {st : Stage} {rule : Rule → List Token → Reading} {ts : List Token}

/-- The five ways to read a simple expression; one with a function apart. -/
theorem readSimple_starts (hst : st.has .functions = false) (operand : Rule) :
    Yields (fun _ => ∃ tag, headTag ts = .ok (.text tag) ∧
      tag ∈ Stage.literals.map st.literalTag ++ ["(", "-"]) (readSimple st rule operand ts) := by
  -- each branch has just compared the next tag with the one it is for
  have hhead : ∀ {v : Value} {tag : String}, headTag ts = .ok v → v.isText tag = true →
      tag ∈ Stage.literals.map st.literalTag ++ ["(", "-"] →
      ∃ tag, headTag ts = .ok (.text tag) ∧
        tag ∈ Stage.literals.map st.literalTag ++ ["(", "-"] :=
    fun hv htag hmem => ⟨_, headTag_of_isText hv htag, hmem⟩
  refine .bind fun v hv => .ite (fun h _ _ => hhead hv h ?_) fun _ =>
    .ite (fun h _ _ => hhead hv (Bool.and_eq_true_iff.1 h).1 ?_) fun _ =>
    .ite (fun h _ _ => hhead hv (Bool.and_eq_true_iff.1 h).1 ?_) fun _ =>
    .ite (fun h _ _ => hhead hv h ?_) fun _ =>
    .ite (fun h _ _ => hhead hv (Bool.and_eq_true_iff.1 h).1 ?_) fun _ =>
    .ite (fun h => ?_) fun _ => .error _
  · simp [Stage.literals, Stage.numberTag]
  · simp [Stage.literals, Stage.booleanTag]
  · simp [Stage.literals, Stage.nameTag]
  · simp
  · simp
  -- a function is no simple expression before `functions`
  · simp [hst] at h

/-- **No expression starts with a word of a statement.** -/
theorem apply_starts (hst : st.has .functions = false) (n : Nat) {r : Rule} (hr : r ∈ formulas)
    (ts : List Token) : Yields (fun _ => Stops r.barred ts) (apply st n r ts) := by
  induction n generalizing r ts with
  | zero => exact .error _
  | succ n ih =>
    -- a rule that begins with another one starts as that one does
    have hfirst : ∀ {r' : Rule} {f : Tree × List Token → Reading}, r' ∈ formulas →
        r.barred ⊆ r'.barred →
        Yields (fun _ => Stops r.barred ts) (apply st n r' ts >>= f) := by
      intro r' f hr' hsub
      exact .bind fun p hp _ _ => (ih hr' ts p hp).mono hsub
    have hleveled : ∀ {operand : Rule} {tags : List String}, r.level? = some (operand, tags) →
        Yields (fun _ => Stops r.barred ts) (apply st (n + 1) r ts) := by
      intro operand tags hlevel
      obtain ⟨hoperand, hsub, -⟩ := level_formulas hlevel
      rw [apply, step_level hlevel]
      exact hfirst hoperand hsub
    cases r with
    | disjunction | conjunction | comparison | sum | product => exact hleveled rfl
    | expression =>
      intro p hp
      exact (ih (by split <;> decide) ts p hp).mono (by split <;> decide)
    | negation =>
      refine .bind fun b hb => .ite (fun hbt => .bind fun _ _ _ _ => ?_) fun _ p hp => ?_
      · exact .of_headTag (headTag_of_nextIs hb hbt) (by decide)
      · exact (ih (by decide) ts p hp).mono (by decide)
    | factor =>
      have hsimple : step st (apply st n) n .factor ts = readSimple st (apply st n) .factor ts := by
        cases st <;> first | rfl | cases hst
      rw [apply, hsimple]
      intro p hp
      obtain ⟨tag, htag, hmem⟩ := readSimple_starts hst _ p hp
      refine .of_headTag htag fun hbarred => ?_
      obtain hliteral | hsign := List.mem_append.1 hmem
      · obtain ⟨word, hword, rfl⟩ := List.mem_map.1 hliteral
        exact st.literalTag_not_mem_signs word hword (barred_subset_signs _ hbarred)
      · simp only [List.mem_cons, List.not_mem_nil, or_false] at hsign
        obtain rfl | rfl := hsign
        · exact absurd hbarred (by decide)
        · exact absurd hbarred (by decide)
    | _ => exact absurd hr (by decide)

end Starts

/-! ## Expressions in step -/

/-- From `returns` on a parenthesis behind an expression makes a call of it: here none does. -/
def Uncalled (st : Stage) (ts : List Token) : Prop :=
  st = .returns → Stops ["("] ts

theorem Uncalled.of_headTag {st : Stage} {ts : List Token} {tag : String}
    (h : headTag ts = .ok (.text tag)) (htag : tag ≠ "(") : Uncalled st ts :=
  fun _ => .of_headTag h (by simpa using htag)

theorem Uncalled.of_nextIs {st : Stage} {ts : List Token} {tag : String}
    (h : nextIs tag ts = .ok true) (htag : tag ≠ "(") : Uncalled st ts :=
  .of_headTag (headTag_of_nextIs h rfl) htag

theorem Aligned.uncalled {truths : Bool} {st st' : Stage} {ts ts' : List Token}
    (h : Aligned truths st st' ts ts') (hts : Uncalled st' ts) : Uncalled st' ts' :=
  fun hst => h.stops (by decide) (hts hst)

/-- The second reading gives the same syntax as the first, and matching tokens behind it, fewer
than `size`; `shape` says how the syntax is kept at a stage. -/
def Mirrored {α β : Type} (truths : Bool) (st st' : Stage) (shape : Stage → α → β)
    (ok : α → Bool) (size : Nat) (y : Except Fault (β × List Token)) (p : β × List Token) : Prop :=
  Uncalled st' p.2 → ∃ a rest', ok a = true ∧ p.1 = shape st a ∧ y = .ok (shape st' a, rest') ∧
    Aligned truths st st' p.2 rest' ∧ rest'.length < size

/-- As `Mirrored`, for elementary expressions. -/
abbrev MirroredExpression (truths : Bool) (st st' : Stage) (size : Nat) (y : Reading)
    (p : Tree × List Token) : Prop :=
  Mirrored truths st st' Expression.tree (Expression.elementary truths) size y p

/-- Whatever `rule` reads as an expression with `r`, the later parser reads with `r'`. -/
def InStep (truths : Bool) (st st' : Stage) (rule : Rule → List Token → Reading) (r r' : Rule) :
    Prop :=
  ∀ ts ts', Aligned truths st st' ts ts' →
    Yields (MirroredExpression truths st st' ts'.length (r'.read st' ts')) (rule r ts)

section Expressions

variable {truths : Bool} {st st' : Stage} {rule : Rule → List Token → Reading}

/-- Operators behind an operand are no parentheses. -/
theorem leftward_uncalled {operand : Rule} {tags : List String} {n : Nat} {left : Tree}
    {ts : List Token} {p : Tree × List Token} (h : leftward st rule operand tags n left ts = .ok p)
    (htags : "(" ∉ tags) (hp : Uncalled st' p.2) : Uncalled st' ts := by
  cases n with
  | zero => cases h
  | succ n =>
    obtain hstops | ⟨tag, htag, hhead⟩ | ⟨e, hhead⟩ := stops_or_headTag tags ts
    · -- the loop has ended, and nothing has been read
      rw [leftward_end n hstops] at h
      cases h
      exact hp
    · exact .of_headTag hhead fun heq => htags (heq ▸ htag)
    · rw [leftward, hhead] at h
      cases h

/-- A chain of operators in step. The induction is on the first reader's budget; the second one's is
larger than what is left to read. -/
theorem leftward_mirrored {r operand : Rule} {tags : List String}
    (hlevel : r.level? = some (operand, tags))
    (hoperand : InStep truths st st' rule operand operand)
    (n k : Nat) {left : Expression} (hleft : left.elementary truths = true) {ts ts' : List Token}
    (h : Aligned truths st st' ts ts') (hk : ts'.length < k) :
    Yields (MirroredExpression truths st st' (ts'.length + 1)
        (leftward st' (Rule.read st') operand tags k (left.tree st') ts'))
      (leftward st rule operand tags n (left.tree st) ts) := by
  obtain ⟨-, -, hopen, hsigns, hoperator⟩ := level_formulas hlevel
  induction n generalizing k left ts ts' with
  | zero => exact .error _
  | succ n ih =>
    obtain ⟨k, rfl⟩ : ∃ j, k = j + 1 := ⟨k - 1, by omega⟩
    obtain hstops | ⟨tag, htag, hhead⟩ | ⟨e, hhead⟩ := stops_or_headTag tags ts
    -- no operator: both loops end with what they have
    · rw [leftward_end n hstops]
      refine .pure fun _ => ⟨left, ts', hleft, rfl, ?_, h, Nat.lt_succ_self _⟩
      exact leftward_end k (h.stops hsigns hstops)
    -- an operator: both take one turn and have the same larger left operand
    · obtain ⟨op, rfl⟩ := hoperator tag htag
      obtain ⟨t, rest, rfl, ht⟩ := exists_of_headTag hhead
      obtain ⟨t', rest', rfl, ht', hrest⟩ := h.of_is (hsigns htag) ht
      conv => arg 2; rw [leftward, hhead, ok_bind]
      simp only [List.contains_iff_mem, htag, if_true]
      refine .bind ?_
      rintro ⟨right, mid⟩ hright p hp huncalled
      obtain ⟨e, mid', he, rfl, hread, hmid, hlength⟩ :=
        hoperand rest rest' hrest _ hright (leftward_uncalled hp hopen huncalled)
      have hbinary : (Expression.binary op left e).elementary truths = true := by
        simp [Expression.elementary, hleft, he]
      simp only [List.length_cons] at hk ⊢
      obtain ⟨a, rest₂, ha, hshape, hy, hrest₂, hlength₂⟩ :=
        ih k hbinary hmid (by omega) p hp huncalled
      exact ⟨a, rest₂, ha, hshape, (leftward_operator k ht' htag hread).trans hy, hrest₂, by omega⟩
    · conv => arg 2; rw [leftward, hhead]
      exact .error _

/-- A level of operators in step: the first operand, and the chain behind it. -/
theorem readLeftward_mirrored {r operand : Rule} {tags : List String}
    (hlevel : r.level? = some (operand, tags))
    (hoperand : InStep truths st st' rule operand operand)
    (n : Nat) {ts ts' : List Token} (h : Aligned truths st st' ts ts') :
    Yields (MirroredExpression truths st st' ts'.length (r.read st' ts'))
      (readLeftward st rule n operand tags ts) := by
  obtain ⟨-, -, hopen, -⟩ := level_formulas hlevel
  refine .bind ?_
  rintro ⟨left, mid⟩ hleft p hp huncalled
  obtain ⟨a, mid', ha, rfl, hfirst, hmid, hlength⟩ :=
    hoperand ts ts' h _ hleft (leftward_uncalled hp hopen huncalled)
  obtain ⟨e, rest', he, hshape, hy, hrest, hlength'⟩ :=
    leftward_mirrored hlevel hoperand n (budget ts'.length) ha hmid
      (by unfold budget; omega) p hp huncalled
  exact ⟨e, rest', he, hshape, (read_level hlevel hfirst).trans hy, hrest, by omega⟩

/-- A negation in step. Where there is none, the comparison must not start with the sign of one. -/
theorem readNegation_mirrored
    (hstarts : ∀ ts, Yields (fun _ => Stops ["!"] ts) (rule .comparison ts))
    (hoperand : ∀ r ∈ [negation, comparison], InStep truths st st' rule r r)
    {ts ts' : List Token} (h : Aligned truths st st' ts ts') :
    Yields (MirroredExpression truths st st' ts'.length (negation.read st' ts'))
      (readNegation st rule ts) := by
  refine .bind fun b hb => .ite (fun hbt => .bind ?_) fun _ p hp => ?_
  · rintro ⟨e, mid⟩ he
    subst hbt
    obtain ⟨t, rest, rfl, ht⟩ := exists_of_nextIs hb
    obtain ⟨t', rest', rfl, ht', hrest⟩ := h.of_is (by decide) ht
    refine .pure fun huncalled => ?_
    obtain ⟨a, mid', ha, rfl, hy, hmid, hlength⟩ :=
      hoperand _ (by decide) rest rest' hrest _ he huncalled
    exact ⟨.not a, mid', ha, rfl, read_not ht' hy, hmid, by simp only [List.length_cons]; omega⟩
  · rw [read_plain (h.stops (by decide) (hstarts ts p hp))]
    exact hoperand _ (by decide) ts ts' h p hp

/-! ### Simple expressions -/

theorem literalTag_ne_sign (st : Stage) {word tag : String} (hword : word ∈ Stage.literals)
    (htag : tag ∈ signs) : st.literalTag word ≠ tag :=
  fun heq => st.literalTag_not_mem_signs word hword (heq ▸ htag)

theorem sign_ne_literalTags (st : Stage) {tag : String} (htag : tag ∈ signs) :
    tag ≠ st.numberTag ∧ tag ≠ st.booleanTag ∧ tag ≠ st.nameTag :=
  ⟨(literalTag_ne_sign st (by decide) htag).symm, (literalTag_ne_sign st (by decide) htag).symm,
    (literalTag_ne_sign st (by decide) htag).symm⟩

/-- What a simple expression is before the tag of a literal: that literal. -/
theorem readSimple_literal (hst : st.has .booleans = true) {operand : Rule} {word : String}
    (hword : word ∈ Stage.literals) {ts : List Token}
    (h : headTag ts = .ok (.text (st.literalTag word))) :
    readSimple st rule operand ts = readLeaf st (st.literalTag word) ts := by
  have hassignments : st.has .assignments = true := Stage.has_of_rank_le hst (by decide)
  obtain ⟨hnb, hnx, hbx⟩ := st.literalTags_ne
  simp only [Stage.numberTag, Stage.booleanTag, Stage.nameTag] at hnb hnx hbx
  simp only [Stage.literals, List.mem_cons, List.not_mem_nil, or_false] at hword
  rcases hword with rfl | rfl | rfl <;>
    simp [readSimple, h, Value.isText, Stage.numberTag, Stage.booleanTag, Stage.nameTag, hst,
      hassignments, hnb.symm, hnx.symm, hbx.symm]

theorem readSimple_open {operand : Rule} {ts : List Token} (h : headTag ts = .ok (.text "(")) :
    readSimple st rule operand ts = parenthesized st rule ts := by
  simp [readSimple, h, Value.isText, sign_ne_literalTags st (show "(" ∈ signs by decide)]

theorem readSimple_minus (hst : st.has .booleans = true) {operand : Rule} {ts : List Token}
    (h : headTag ts = .ok (.text "-")) :
    readSimple st rule operand ts = negated st rule operand ts := by
  simp [readSimple, h, Value.isText, sign_ne_literalTags st (show "-" ∈ signs by decide), hst]

/-- A literal in step: both readings take it for the same value, each under its own tag. -/
theorem readLeaf_mirrored {t : Token} {ts ts' : List Token} {word : String}
    (hword : word ∈ Stage.literals) (h : Aligned truths st st' (t :: ts) ts')
    (ht : Is (st.literalTag word) t) :
    headTag ts' = .ok (.text (st'.literalTag word)) ∧
      Yields (MirroredExpression truths st st' ts'.length (readLeaf st' (st'.literalTag word) ts'))
        (readLeaf st (st.literalTag word) (t :: ts)) := by
  obtain ⟨t', rest', hmatch, hrest, rfl⟩ := List.forall₂_cons_left_iff.1 h
  cases hmatch with
  | other hv _ _ hne =>
    -- a token that matches as no literal does not have the tag of one
    have hv' := Except.ok.inj (hv.symm.trans ht)
    subst hv'
    simpa [Value.isText] using hne word hword
  | literal he hleaf htag htag' hvalue hvalue' =>
    have htext := Value.text.inj (Except.ok.inj (htag.symm.trans ht))
    obtain rfl := st.literalTag_injective _ (Expression.literal?_mem hleaf) _ hword htext
    refine ⟨htag', .bind fun w hw => .pure fun _ => ⟨_, rest', he, ?_, ?_, hrest, by simp⟩⟩
    · cases hvalue.symm.trans hw
      exact (Expression.literal?_tree hleaf st).symm
    · rw [Expression.literal?_tree hleaf st', readLeaf]
      have hread : headValue (t' :: rest') = .ok _ := hvalue'
      rw [hread]
      rfl

/-- In parentheses a later stage may ask for another rule than a comparison. -/
theorem parenthesized_mirrored (hst : st.has .booleans = true) (hf : st.has .functions = false)
    (hinner : ∀ ts ts', Aligned truths st st' ts ts' →
      Yields (fun p => nextIs ")" p.2 = .ok true → MirroredExpression truths st st' ts'.length
        (Rule.read st' (if st'.has .booleans && !st'.has .returns then comparison else expression)
          ts') p) (rule .comparison ts))
    {t t' : Token} {ts ts' : List Token} (h : Aligned truths st st' ts ts') :
    Yields (MirroredExpression truths st st' (ts'.length + 1)
        (parenthesized st' (Rule.read st') (t' :: ts'))) (parenthesized st rule (t :: ts)) := by
  -- before `functions` it is always a comparison that is read in parentheses
  have hreturns : st.has .returns = false := by
    cases st <;> first | rfl | cases hf
  have hcomparison : parenthesized st rule (t :: ts) =
      rule .comparison ts >>= fun p => nextIs ")" p.2 >>= fun b =>
        if b then pure (p.1, p.2.drop 1) else throw .unclosed := by
    simp [parenthesized, hst, hreturns]
  rw [hcomparison]
  refine .bind ?_
  rintro ⟨e, mid⟩ he
  refine .bind fun b hb => .ite (fun hbt => .pure fun _ => ?_) fun _ => .error _
  subst hbt
  obtain ⟨a, mid', ha, rfl, hread, hmid, hlength⟩ :=
    -- the closing parenthesis is next, and hence no opening one
    hinner ts ts' h _ he hb (.of_nextIs hb (by decide))
  refine ⟨a, mid'.drop 1, ha, rfl, ?_, List.forall₂_drop 1 hmid, ?_⟩
  · simp only [parenthesized, List.drop_one, List.tail_cons]
    rw [hread]
    simp [hmid.nextIs (by decide) hb]
  · rw [List.length_drop]
    omega

/-- The negative of an operand in step. -/
theorem negated_mirrored {operand operand' : Rule}
    (hoperand : InStep truths st st' rule operand operand')
    {t t' : Token} {ts ts' : List Token} (h : Aligned truths st st' ts ts') :
    Yields (MirroredExpression truths st st' (ts'.length + 1)
        (negated st' (Rule.read st') operand' (t' :: ts')))
      (negated st rule operand (t :: ts)) := by
  refine .bind ?_
  rintro ⟨e, mid⟩ he
  refine .pure fun huncalled => ?_
  obtain ⟨a, mid', ha, rfl, hread, hmid, hlength⟩ := hoperand ts ts' h _ he huncalled
  refine ⟨.negate a, mid', ha, rfl, ?_, hmid, by omega⟩
  simp only [negated, List.drop_one, List.tail_cons]
  rw [hread]
  rfl

/-- A simple expression in step: a literal, an expression in parentheses or the negative of one. -/
theorem readSimple_mirrored (hst : st.has .booleans = true) (hst' : st'.has .booleans = true)
    (hf : st.has .functions = false) {operand : Rule}
    (hinner : ∀ ts ts', Aligned truths st st' ts ts' →
      Yields (fun p => nextIs ")" p.2 = .ok true → MirroredExpression truths st st' ts'.length
        (Rule.read st' (if st'.has .booleans && !st'.has .returns then comparison else expression)
          ts') p) (rule .comparison ts))
    (hoperand : InStep truths st st' rule .factor operand)
    {ts ts' : List Token} (h : Aligned truths st st' ts ts') :
    Yields (MirroredExpression truths st st' ts'.length
        (readSimple st' (Rule.read st') operand ts'))
      (readSimple st rule .factor ts) := by
  intro p hp
  obtain ⟨tag, htag, hmem⟩ := readSimple_starts hf _ p hp
  obtain ⟨t, rest, rfl, ht⟩ := exists_of_headTag htag
  simp only [List.mem_append, List.mem_map, List.mem_cons, List.not_mem_nil, or_false] at hmem
  rcases hmem with ⟨word, hword, rfl⟩ | rfl | rfl
  · obtain ⟨htag', hleaf⟩ := readLeaf_mirrored hword h ht
    rw [readSimple_literal hst hword htag] at hp
    rw [readSimple_literal hst' hword htag']
    exact hleaf p hp
  · obtain ⟨t', rest', rfl, ht', hrest⟩ := h.of_is (by decide) ht
    rw [readSimple_open htag] at hp
    rw [readSimple_open (headTag_of_is ht')]
    exact parenthesized_mirrored hst hf hinner hrest p hp
  · obtain ⟨t', rest', rfl, ht', hrest⟩ := h.of_is (by decide) ht
    rw [readSimple_minus hst htag] at hp
    rw [readSimple_minus hst' (headTag_of_is ht')]
    exact negated_mirrored hoperand hrest p hp

/-! ### All rules of expressions -/

/-- The rule that a later stage reads a factor with, calls apart. -/
def counterpart (st' : Stage) (r : Rule) : Rule :=
  if r = .factor ∧ st' = .returns then .simple else r

theorem counterpart_of_ne {r : Rule} (h : r ≠ .factor) : r.counterpart st' = r := by
  simp [counterpart, h]

/-- What is not called is a factor as it stands. -/
theorem read_of_counterpart {r : Rule} {e : Tree} {ts rest : List Token}
    (h : (r.counterpart st').read st' ts = .ok (e, rest)) (hrest : Uncalled st' rest) :
    r.read st' ts = .ok (e, rest) := by
  unfold counterpart at h
  split at h
  · rename_i hfactor
    obtain ⟨rfl, rfl⟩ := hfactor
    obtain ⟨k, hk⟩ : ∃ k, budget ts.length = k + 1 := ⟨16 * ts.length + 31, rfl⟩
    rw [read_factor, read_callable h, hk, calls_end k (hrest rfl)]
  · exact h

/-- In parentheses a comparison is an expression. -/
theorem read_expression_of_comparison {e : Tree} {ts rest : List Token}
    (h : comparison.read .returns ts = .ok (e, rest)) (hts : Stops ["!"] ts)
    (hrest : Stops ["&&", "||"] rest) : expression.read .returns ts = .ok (e, rest) := by
  obtain ⟨k, hk⟩ : ∃ k, budget ts.length = k + 1 := ⟨16 * ts.length + 31, rfl⟩
  have hconjunction : conjunction.read .returns ts = .ok (e, rest) := by
    rw [read_level rfl ((read_plain hts).trans h), hk, leftward_end k (hrest.mono (by simp))]
  rw [read_expression, read_level rfl hconjunction, hk, leftward_end k (hrest.mono (by simp))]

/-- **Rules of expressions in step**: a later stage gives the tree of the same expression. -/
theorem apply_formula (hst : st.has .booleans = true) (hst' : st'.has .booleans = true)
    (hf : st.has .functions = false) (hf' : st' ≠ .functions) (n : Nat) {r : Rule}
    (hr : r ∈ formulas) {ts ts' : List Token} (h : Aligned truths st st' ts ts') :
    Yields (MirroredExpression truths st st' ts'.length ((r.counterpart st').read st' ts'))
      (apply st n r ts) := by
  induction n generalizing r ts ts' with
  | zero => exact .error _
  | succ n ih =>
    -- by hypothesis, up to the calls that a later stage would read behind a factor
    have hread : ∀ {r : Rule}, r ∈ formulas → InStep truths st st' (apply st n) r r := by
      intro r hr ts ts' h p hp huncalled
      obtain ⟨e, rest', he, hshape, hy, hrest, hlength⟩ := ih hr h p hp huncalled
      have hplain := read_of_counterpart hy (hrest.uncalled huncalled)
      exact ⟨e, rest', he, hshape, hplain, hrest, hlength⟩
    have hleveled : ∀ {operand : Rule} {tags : List String}, r.level? = some (operand, tags) →
        Yields (MirroredExpression truths st st' ts'.length ((r.counterpart st').read st' ts'))
          (apply st (n + 1) r ts) := by
      intro operand tags hlevel
      obtain ⟨hoperand, -⟩ := level_formulas hlevel
      have hne : r ≠ .factor := by
        rintro rfl
        cases hlevel
      rw [counterpart_of_ne hne, apply, step_level hlevel]
      exact readLeftward_mirrored hlevel (hread hoperand) n h
    -- what a comparison may start with, at the earlier stage
    have hstarts : ∀ ts, Yields (fun _ => Stops ["!"] ts) (apply st n .comparison ts) := by
      intro ts p hp
      have hbarred : ["!"] ⊆ comparison.barred := by decide
      exact (apply_starts hf n (by decide) ts p hp).mono hbarred
    cases r with
    | disjunction | conjunction | comparison | sum | product => exact hleveled rfl
    | expression =>
      have hy : expression.read st' ts' = disjunction.read st' ts' := by
        rw [read_eq]
        simp [step, hst']
      rw [counterpart_of_ne (by decide), hy, apply]
      simp only [step, hst, if_true]
      exact hread (by decide) ts ts' h
    | negation =>
      rw [counterpart_of_ne (by decide)]
      refine readNegation_mirrored hstarts ?_ h
      simp only [List.forall_mem_cons]
      exact ⟨hread (by decide), hread (by decide), by simp⟩
    -- a factor is a simple expression at both stages, but one of `returns` looks for calls behind
    -- it
    | factor =>
      have hsimple : step st (apply st n) n .factor ts = readSimple st (apply st n) .factor ts := by
        cases st <;> first | rfl | cases hf
      have hy : (counterpart st' .factor).read st' ts' =
          readSimple st' (Rule.read st') (counterpart st' .factor) ts' := by
        rw [read_eq]
        cases st' <;> first | rfl | exact absurd rfl hf'
      rw [hy, apply, hsimple]
      refine readSimple_mirrored hst hst' hf (fun ts ts' h p hp hclose => ?_)
        (fun ts ts' h => ih hr h) h
      -- in parentheses `returns` reads any expression, and a comparison before `)` is one
      by_cases hreturns : st' = .returns
      · subst hreturns
        intro huncalled
        obtain ⟨e, rest', he, hshape, hy, hrest, hlength⟩ :=
          hread (by decide) ts ts' h p hp huncalled
        refine ⟨e, rest', he, hshape, ?_, hrest, hlength⟩
        exact read_expression_of_comparison hy (h.stops (by decide) (hstarts ts p hp))
          (.of_headTag (headTag_of_nextIs (hrest.nextIs (by decide) hclose) rfl) (by decide))
      · have hrule : (if st'.has .booleans && !st'.has .returns then comparison else expression) =
            comparison := by
          cases st' <;> first | rfl | exact absurd rfl hreturns | cases hst'
        rw [hrule]
        exact hread (by decide) ts ts' h p hp
    | _ => exact absurd hr (by decide)

end Expressions

end Rule

end Stepwise
