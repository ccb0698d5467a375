import Stepwise.Proofs.ExpressionStages
import Stepwise.Proofs.ParserSafety

/-!
# Tokens of two stages

From `booleans` on all stages cut a text at the same places. Up to `conditions` a comment
makes a token and a keyword's token holds its spelling; later comments are left out and only
literals hold a value. So the tokens of two stages match, one by one, unless there are
comments that only one of the stages leaves out.

- `Lexeme.SameCuts`: both stages leave comments out, or there are none;
- `tokenize_aligned`: the tokens of a text at two stages match.
-/

namespace Stepwise

open Token (Is)

variable {st st' : Stage}

/-! ## Lexemes -/

theorem Stage.classes_eq (hst : st.has .booleans = true) (hst' : st'.has .booleans = true) :
    st'.classes = st.classes := by
  simp [Stage.classes, Stage.operators, hst, hst']

namespace Lexeme

theorem classify_eq (hclasses : st'.classes = st.classes) (cs : List Char) :
    classify st' cs = classify st cs := by
  rw [classify, classify, hclasses]

/-- Two stages with the same classes cut a text into the same lexemes, if they leave out the same
ones. -/
theorem scanFrom_congr (hclasses : st'.classes = st.classes) {cs : List Char}
    (hskips : ∀ rest, rest <:+ cs → ∀ kind n, classify st rest = some (kind, n) →
      st'.skips kind = st.skips kind) (position pending : Nat) :
    scanFrom st' position pending cs = scanFrom st position pending cs := by
  induction cs generalizing position pending with
  | nil =>
    unfold scanFrom
    rfl
  | cons c rest ih =>
    -- what is said of all suffixes is said of those of the rest
    have hrest := ih fun more hmore => hskips more (hmore.trans (List.suffix_cons c rest))
    cases pending with
    | succ k =>
      rw [scanFrom, scanFrom]
      exact hrest (position + 1) k
    | zero =>
      rw [scanFrom, scanFrom, classify_eq hclasses]
      cases hclass : classify st (c :: rest) with
      | none => rfl
      | some found =>
        obtain ⟨kind, n⟩ := found
        simp only [hrest, hskips _ (List.suffix_refl _) kind n hclass]

/-- Both stages leave comments out, or the text has none. -/
def SameCuts (st st' : Stage) (cs : List Char) : Prop :=
  (st.has .blocks = true ∧ st'.has .blocks = true) ∨ ¬ ['/', '/'] <:+: cs

theorem SameCuts.of_suffix {cs rest : List Char} (h : SameCuts st st' cs) (hrest : rest <:+ cs) :
    SameCuts st st' rest :=
  h.imp_right fun hnot hcomment => hnot (hcomment.trans hrest.isInfix)

/-- A comment starts with two slashes. -/
theorem infix_of_commentReach {cs : List Char} (h : commentReach cs ≠ 0) :
    ['/', '/'] <:+: cs := by
  unfold commentReach at h
  split at h
  · exact ⟨[], _, rfl⟩
  · exact absurd rfl h

/-- Both stages make a token of the lexeme, or neither does. -/
theorem SameCuts.skips {cs : List Char} {kind : LexClass} {n : Nat} (h : SameCuts st st' cs)
    (hclass : classify st cs = some (kind, n)) : st'.skips kind = st.skips kind := by
  cases kind with
  | comment =>
    obtain ⟨hst, hst'⟩ | hnot := h
    · exact hst'.trans hst.symm
    · obtain ⟨-, rfl, hn⟩ := classify_sound hclass
      exact absurd (infix_of_commentReach hn) hnot
  | blank | number | string | boolean | word | name => rfl

/-- Texts are cut at the same places. -/
theorem scanFrom_eq (hst : st.has .booleans = true) (hst' : st'.has .booleans = true)
    {cs : List Char} (h : SameCuts st st' cs) (position pending : Nat) :
    scanFrom st' position pending cs = scanFrom st position pending cs :=
  scanFrom_congr (Stage.classes_eq hst hst')
    (fun _ hrest _ _ hclass => (h.of_suffix hrest).skips hclass) position pending

end Lexeme

/-! ## Tokens -/

/-- The tags of all tokens but literals. -/
def Stage.otherTags (st : Stage) : List String :=
  "null" :: "comment" :: st.stringTag :: (Stage.keywords ++ st.operators)

/-- No other tag is that of a literal. -/
theorem Stage.otherTags_ne_literal (st : Stage) :
    ∀ tag ∈ st.otherTags, ∀ word ∈ Stage.literals, tag ≠ st.literalTag word := by
  intro tag htag
  obtain ⟨hn, hb, hx⟩ := st.ne_literalTag tag htag
  simpa [Stage.literals] using ⟨hn, hb, hx⟩

/-- Tokens that are no literals match if their tags are the same, or of no concern to the rules. -/
theorem Token.Matches.of_tags {truths : Bool} {tag tag' : String} {t t' : Token}
    (ht : Is tag t) (ht' : Is tag' t') (htag : tag ∈ st.otherTags) (htag' : tag' ∈ st'.otherTags)
    (hsigns : tag' = tag ∨ tag ∉ Rule.signs ∧ tag' ∉ Rule.signs) :
    Token.Matches truths st st' t t' := by
  have hne := st.otherTags_ne_literal tag htag
  have hne' := st'.otherTags_ne_literal tag' htag'
  refine .other ht ht' ⟨fun sign hsign => ?_, fun word hword => ?_⟩ fun word hword => ?_
  · obtain rfl | ⟨hnot, hnot'⟩ := hsigns
    · rfl
    · have h : tag ≠ sign := fun heq => hnot (heq ▸ hsign)
      have h' : tag' ≠ sign := fun heq => hnot' (heq ▸ hsign)
      simp [Value.isText, h, h']
  · simp [Value.isText, hne word hword, hne' word hword]
  · simp [Value.isText, hne word hword]

theorem Token.ending_matches (truths : Bool) :
    Token.Matches truths st st' Token.ending Token.ending := by
  have htag : Token.ending.field "tag" = .ok .null := rfl
  exact .other htag htag ⟨fun _ _ => rfl, fun _ _ => rfl⟩ fun _ _ => rfl

namespace Lexeme

/-- The token of a lexeme that is no literal has one of the other tags, the same at two stages
unless it is a text. -/
theorem token_other {x : Lexeme} (hx : x.WellFormed st) (hst : st.has .booleans = true)
    (hst' : st'.has .booleans = true) (hkind : x.kind ∉ [.number, .boolean, .name]) :
    ∃ t t' tag tag', token st x = .ok t ∧ token st' x = .ok t' ∧ Is tag t ∧ Is tag' t' ∧
      tag ∈ st.otherTags ∧ tag' ∈ st'.otherTags ∧
      (tag' = tag ∨ tag ∉ Rule.signs ∧ tag' ∉ Rule.signs) := by
  obtain ⟨kind, text, position⟩ := x
  have hoperators : st'.operators = st.operators := by
    simp [Stage.operators, hst, hst']
  cases kind with
  | number | boolean | name => simp at hkind
  | comment | blank =>
    exact ⟨_, _, "comment", "comment", rfl, rfl, rfl, rfl, by simp [Stage.otherTags],
      by simp [Stage.otherTags], .inl rfl⟩
  | string =>
    -- the tag of a text differs from stage to stage, but no rule looks for it
    have hsigns : ∀ s : Stage, s.stringTag ∉ Rule.signs := by
      intro s
      cases s <;> decide
    exact ⟨_, _, st.stringTag, st'.stringTag, rfl, rfl, rfl, rfl, by simp [Stage.otherTags],
      by simp [Stage.otherTags], .inr ⟨hsigns st, hsigns st'⟩⟩
  | word spelling =>
    by_cases hnull : spelling = "null"
    · subst hnull
      exact ⟨_, _, "null", "null", rfl, rfl, rfl, rfl, by simp [Stage.otherTags],
        by simp [Stage.otherTags], .inl rfl⟩
    · have hmem : spelling ∈ Stage.keywords ++ st.operators := word_mem hx.kind_mem
      -- from `blocks` on a keyword's token holds no value, which no rule looks at
      have htoken : ∀ s : Stage, token s ⟨.word spelling, text, position⟩ =
          .ok (Token.make spelling (if s.has .blocks then none else some (.text spelling))
            position) := by
        intro s
        simp [token]
      refine ⟨_, _, spelling, spelling, htoken st, htoken st', rfl, rfl, ?_, ?_, .inl rfl⟩
      · exact List.mem_cons_of_mem _ (List.mem_cons_of_mem _ (List.mem_cons_of_mem _ hmem))
      · rw [← hoperators] at hmem
        exact List.mem_cons_of_mem _ (List.mem_cons_of_mem _ (List.mem_cons_of_mem _ hmem))

/-- **The tokens of a lexeme match**, if both stages make one of it. -/
theorem token_matches {truths : Bool} {x : Lexeme} (hx : x.WellFormed st)
    (hst : st.has .booleans = true) (hst' : st'.has .booleans = true) :
    Yields (fun t => (truths = true ∨ ¬ Is st.booleanTag t) →
      ∃ t', token st' x = .ok t' ∧ Token.Matches truths st st' t t') (token st x) := by
  by_cases hkind : x.kind ∈ [.number, .boolean, .name]
  · obtain ⟨kind, text, position⟩ := x
    simp only [List.mem_cons, List.not_mem_nil, or_false] at hkind
    rcases hkind with rfl | rfl | rfl
    · refine .bind fun v hv => .pure fun _ => ?_
      obtain ⟨y, rfl⟩ := numeral_yields text v hv
      refine ⟨Token.make st'.numberTag (some y.value) position, ?_, ?_⟩
      · simp [token, hv]
      · exact .literal (e := .number y) rfl rfl rfl rfl rfl rfl
    · refine .pure fun htruths => ⟨_, rfl, ?_⟩
      -- a truth value, which the hypothesis admits only where they are let pass
      have htrue : truths = true := htruths.resolve_right fun hnot => hnot rfl
      rw [truthValue_eq hst, truthValue_eq hst']
      exact .literal (e := .boolean _) htrue rfl rfl rfl rfl rfl
    · have hname : isName (String.ofList text).toList = true := by
        simpa using hx.isName_text rfl
      refine .pure fun _ => ⟨_, rfl, ?_⟩
      exact .literal (e := .name ⟨String.ofList text, hname⟩) rfl rfl rfl rfl rfl rfl
  · obtain ⟨t, t', tag, tag', ht, ht', hmatch⟩ := token_other hx hst hst' hkind
    intro u hu _
    cases ht.symm.trans hu
    obtain ⟨htag, htag', hmem, hmem', hsigns⟩ := hmatch
    exact ⟨t', ht', .of_tags htag htag' hmem hmem' hsigns⟩

end Lexeme

/-- The tokens of a list of lexemes match one by one. -/
theorem mapM_aligned {truths : Bool} {xs : List Lexeme} (hxs : ∀ x ∈ xs, x.WellFormed st)
    (hst : st.has .booleans = true) (hst' : st'.has .booleans = true) :
    Yields (fun ts => (truths = true ∨ ∀ t ∈ ts, ¬ Is st.booleanTag t) →
      ∃ ts', xs.mapM (Lexeme.token st') = .ok ts' ∧ Rule.Aligned truths st st' ts ts')
      (xs.mapM (Lexeme.token st)) := by
  induction xs with
  | nil => exact .pure fun _ => ⟨[], rfl, .nil⟩
  | cons x xs ih =>
    rw [List.mapM_cons, List.mapM_cons]
    refine .bind fun t ht => .bind fun ts hts => .pure fun htruths => ?_
    obtain ⟨t', ht', hmatch⟩ := Lexeme.token_matches (hxs x (by simp)) hst hst' t ht
      (htruths.imp_right fun hnot => hnot t (by simp))
    obtain ⟨ts', hts', haligned⟩ := ih (fun y hy => hxs y (by simp [hy])) ts hts
      (htruths.imp_right fun hnot u hu => hnot u (by simp [hu]))
    refine ⟨t' :: ts', ?_, .cons hmatch haligned⟩
    rw [ht', hts']
    rfl

/-- **The tokens of a text at two stages match**, one by one. -/
theorem tokenize_aligned (truths : Bool) {code : String} (hst : st.has .booleans = true)
    (hst' : st'.has .booleans = true) (hcuts : Lexeme.SameCuts st st' code.toList) :
    Yields (fun ts => (truths = true ∨ ∀ t ∈ ts, ¬ Is st.booleanTag t) →
      ∃ ts', tokenize st' code = .ok ts' ∧
        Rule.Aligned truths st st' (ts ++ [Token.ending]) (ts' ++ [Token.ending]))
      (tokenize st code) := by
  refine .bind fun xs hxs ts hts htruths => ?_
  obtain ⟨ts', hts', haligned⟩ :=
    mapM_aligned (Lexeme.scanFrom_sound st code.toList 0 0 xs hxs) hst hst' ts hts htruths
  have hscan : Lexeme.scan st' code.toList = .ok xs :=
    (Lexeme.scanFrom_eq hst hst' hcuts 0 0).trans hxs
  refine ⟨ts', ?_, List.rel_append haligned (.cons (Token.ending_matches truths) .nil)⟩
  rw [tokenize, hscan]
  exact hts'

/-! ## From texts to readings -/

/-- What the parser gives is the first statement of the tokens. -/
theorem parse_eq_ok_iff (hst : st.has .assignments = true) {ts : List Token} {t : Tree} :
    parse st ts = .ok t ↔
      ∃ rest, Rule.statement.read st (ts ++ [Token.ending]) = .ok (t, rest) := by
  rw [parse_eq_ok_iff_read, Rule.start, if_pos hst]

theorem Program.tree_eq_parse {code : String} {ts : List Token} (h : tokenize st code = .ok ts) :
    Program.tree st code = parse st ts := by
  rw [Program.tree, h]
  rfl

/-- A text with a tree has tokens. -/
theorem Program.exists_tokens {code : String} {t : Tree} (h : Program.tree st code = .ok t) :
    ∃ ts, tokenize st code = .ok ts ∧ parse st ts = .ok t := by
  cases hts : tokenize st code with
  | error e =>
    rw [Program.tree, hts] at h
    cases h
  | ok ts => exact ⟨ts, rfl, (Program.tree_eq_parse hts).symm.trans h⟩

end Stepwise
