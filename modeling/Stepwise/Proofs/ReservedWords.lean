import Stepwise.Proofs.Comments

/-!
# Reserved words

The words for truth values and the keywords are tried before names, and what follows them is not
looked at. So a name that starts with one of them is cut behind it, and what is left is cut by
itself. Every other name is one token (`tokenize_identifier`).

- `Stage.reserved`: the reserved words. None of them is the beginning of another
  (`eq_of_reserved_heads`), so that it does not matter in which order they are tried;
- `classify_truth`, `classify_keyword`: a reserved word is a lexeme, whatever follows;
- `Stage.reservedToken`: the token that it makes.
-/

namespace Stepwise

/-- The words that are cut off a text wherever they stand at its head. -/
def Stage.reserved : List String :=
  "true" :: "false" :: Stage.keywords

namespace Lexeme

/-! ## Cutting behind a reserved word -/

/-- **A text starts with one reserved word at most.** -/
theorem eq_of_reserved_heads {word other : String} (hword : word ∈ Stage.reserved)
    (hother : other ∈ Stage.reserved) {cs : List Char} (h : word.toList <+: cs)
    (h' : other.toList <+: cs) : word = other := by
  have hall : ∀ word ∈ Stage.reserved, ∀ other ∈ Stage.reserved,
      word.toList.isPrefixOf other.toList = true → word = other := by decide
  rcases List.prefix_or_prefix_of_prefix h h' with hle | hle
  · exact hall word hword other hother (List.isPrefixOf_iff_prefix.2 hle)
  · exact (hall other hother word hword (List.isPrefixOf_iff_prefix.2 hle)).symm

theorem wordReach_self (word : String) (rest : List Char) :
    wordReach word (word.toList ++ rest) = word.length := by
  rw [wordReach, if_pos (List.isPrefixOf_iff_prefix.2 (List.prefix_append _ _))]

section Reserved

variable (st : Stage) {word : String} (hword : word ∈ Stage.reserved) (rest : List Char)
include hword

/-- No other reserved word starts where one stands. -/
theorem wordReach_other {other : String} (hother : other ∈ Stage.reserved) (hne : other ≠ word) :
    wordReach other (word.toList ++ rest) = 0 := by
  refine wordReach_eq_zero (Bool.eq_false_iff.2 fun hstarts => ?_)
  exact hne (eq_of_reserved_heads hother hword (List.isPrefixOf_iff_prefix.1 hstarts)
    (List.prefix_append _ _))

/-- The classes that are tried before all words start elsewhere. -/
theorem reach_before_reserved : ∀ kind ∈ [LexClass.comment, .blank, .number, .string],
    kind.reach (word.toList ++ rest) = 0 := by
  have hall : ∀ word ∈ Stage.reserved, (word.toList.head?.any isNameStart) = true := by decide
  obtain ⟨c, hhead, hc⟩ := Option.any_eq_true _ _ |>.1 (hall word hword)
  obtain ⟨more, hmore⟩ := List.head?_eq_some_iff.1 hhead
  rw [hmore]
  exact reach_of_isNameStart hc (more ++ rest)

theorem length_reserved : word.length ≠ 0 := by
  have hall : ∀ word ∈ Stage.reserved, word.length ≠ 0 := by decide
  exact hall word hword

/-- The two words of truth values are cut as such, whatever follows. -/
theorem classify_truth (htruth : word = "true" ∨ word = "false") :
    classify st (word.toList ++ rest) = some (.boolean, word.length) := by
  let after : List LexClass := Stage.keywords.map LexClass.word ++ st.operators.map LexClass.word ++
    [.name]
  have hclasses : st.classes =
    [LexClass.comment, .blank, .number, .string] ++ LexClass.boolean :: after := rfl
  have hreach : LexClass.boolean.reach (word.toList ++ rest) = word.length := by
    rcases htruth with rfl | rfl
    · rw [LexClass.reach, wordReach_self, wordReach_other hword rest (by decide) (by decide)]
      rfl
    · rw [LexClass.reach, wordReach_self, wordReach_other hword rest (by decide) (by decide)]
      rfl
  exact classify_of_before hclasses (reach_before_reserved hword rest) hreach
    (length_reserved hword)

/-- Any other reserved word is cut as a word, whatever follows. -/
theorem classify_keyword (htrue : "true" ≠ word) (hfalse : "false" ≠ word) :
    classify st (word.toList ++ rest) = some (.word word, word.length) := by
  have hkeyword : word ∈ Stage.keywords := by
    simpa [Stage.reserved, htrue.symm, hfalse.symm] using hword
  obtain ⟨front, back, hsplit⟩ := List.append_of_mem hkeyword
  let before : List LexClass := .comment :: .blank :: .number :: .string :: .boolean ::
    front.map LexClass.word
  let after : List LexClass := back.map LexClass.word ++ (st.operators.map LexClass.word ++ [.name])
  have hclasses : st.classes = before ++ LexClass.word word :: after := by
    simp [Stage.classes, hsplit, before, after]
  have hfront : ∀ other ∈ front, wordReach other (word.toList ++ rest) = 0 := by
    intro other hother
    have hnodup : Stage.keywords.Nodup := by decide
    rw [hsplit, List.nodup_append] at hnodup
    have hreserved : other ∈ Stage.reserved := by simp [Stage.reserved, hsplit, hother]
    exact wordReach_other hword rest hreserved (hnodup.2.2 other hother word (by simp))
  have hboolean : LexClass.boolean.reach (word.toList ++ rest) = 0 := by
    rw [LexClass.reach, wordReach_other hword rest (by decide) htrue,
      wordReach_other hword rest (by decide) hfalse]
    rfl
  refine classify_of_before hclasses ?_ (wordReach_self word rest) (length_reserved hword)
  have hearlier := reach_before_reserved hword rest
  simp only [List.forall_mem_cons, List.forall_mem_map, before] at hearlier ⊢
  exact ⟨hearlier.1, hearlier.2.1, hearlier.2.2.1, hearlier.2.2.2.1, hboolean, hfront⟩

end Reserved

end Lexeme

/-! ## Tokens -/

/-- The token of a reserved word at the head of a text: a truth value with its value, a keyword with
its spelling, or without a value from `blocks` on. -/
def Stage.reservedToken (st : Stage) (word : String) : Token :=
  if word = "true" ∨ word = "false" then
    Token.make st.booleanTag (some (Lexeme.truthValue st word.toList)) 0
  else
    Token.make word
      (if st.has .blocks then none else some (if word = "null" then .null else .text word)) 0

namespace Lexeme

variable (st : Stage)

/-- **What follows a reserved word is cut by itself.** -/
theorem tokenize_reserved {word : String} (hword : word ∈ Stage.reserved) (rest : String) :
    tokenize st (word ++ rest) = (tokenize st rest).map fun more =>
      st.reservedToken word :: more.map (Token.moved word.length) := by
  by_cases htruth : word = "true" ∨ word = "false"
  · have htoken : token st ⟨.boolean, word.toList, 0⟩ = .ok (st.reservedToken word) := by
      rw [Stage.reservedToken, if_pos htruth]
      rfl
    exact tokenize_cut (classify_truth st hword _ htruth) rfl htoken
  · have htoken : token st ⟨.word word, word.toList, 0⟩ = .ok (st.reservedToken word) := by
      rw [Stage.reservedToken, if_neg htruth]
      by_cases hnull : word = "null"
      · subst hnull
        rfl
      · rw [if_neg hnull]
        simp only [token]
        rfl
    rw [not_or] at htruth
    have hclass := classify_keyword st hword rest.toList (Ne.symm htruth.1) (Ne.symm htruth.2)
    exact tokenize_cut hclass rfl htoken

/-- A name that starts with no reserved word is one token. -/
theorem tokenize_unreserved (x : Identifier)
    (h : ∀ word ∈ Stage.reserved, ¬ word.toList <+: x.text.toList) :
    tokenize st x.text = .ok [Token.make st.nameTag (some (.text x.text)) 0] := by
  have hunreserved : isUnreserved x.text.toList = true := by
    simp only [isUnreserved, List.all_eq_true, Bool.not_eq_true']
    intro word hword
    rw [Bool.eq_false_iff]
    exact fun hstarts => h word hword (List.isPrefixOf_iff_prefix.1 hstarts)
  have hclass : classify st (x.text.toList ++ "".toList) = some (.name, x.text.toList.length) := by
    simpa using (spelled_name x.spelled hunreserved).classify
  have htoken : token st ⟨.name, x.text.toList, 0⟩ =
      .ok (Token.make st.nameTag (some (.text x.text)) 0) := by
    simp only [token, String.ofList_toList]
    rfl
  have hcut := tokenize_cut hclass rfl htoken
  rw [String.append_empty] at hcut
  exact hcut

/-- The token of a reserved word is no name. -/
theorem reservedToken_ne {word : String} (hword : word ∈ Stage.reserved) (v : Option Value)
    (position : Nat) : st.reservedToken word ≠ Token.make st.nameTag v position := by
  have hall : st.booleanTag ≠ st.nameTag ∧ ∀ word ∈ Stage.reserved, word ≠ st.nameTag := by
    cases st <;> decide
  have htag : ∀ tag w p, (Token.make tag w p).field "tag" = .ok (.text tag) := fun _ _ _ => rfl
  intro heq
  have hfields := congrArg (Value.field "tag") heq
  rw [Stage.reservedToken] at hfields
  split at hfields
  · rw [htag, htag] at hfields
    exact hall.1 (Value.text.inj (Except.ok.inj hfields))
  · rw [htag, htag] at hfields
    exact hall.2 word hword (Value.text.inj (Except.ok.inj hfields))

end Lexeme

/-- **Which names are identifiers.** At every stage a name is a single token, with its own spelling
for value, just if it starts with none of the reserved words. A name that starts with one has the
token of this word first, and behind it the tokens that the rest of the name has by itself, as many
characters further on as the word has. If the rest has no tokens, for a numeral that is too long,
the name fails as the rest does. -/
theorem tokenize_identifier (st : Stage) (x : Identifier) :
    (tokenize st x.text = .ok [Token.make st.nameTag (some (.text x.text)) 0] ↔
      ∀ word ∈ Stage.reserved, ¬ word.toList <+: x.text.toList) ∧
    ∀ word ∈ Stage.reserved, ∀ rest : String, x.text = word ++ rest →
      tokenize st x.text = (tokenize st rest).map fun more =>
        st.reservedToken word :: more.map (Token.moved word.length) := by
  refine ⟨⟨fun hname word hword hstarts => ?_, Lexeme.tokenize_unreserved st x⟩, ?_⟩
  · obtain ⟨rest, hrest⟩ := hstarts
    have htext : x.text = word ++ String.ofList rest := by
      rw [← String.toList_inj, String.toList_append, String.toList_ofList, hrest]
    rw [htext, Lexeme.tokenize_reserved st hword] at hname
    -- both the reserved word and the name would be the first token
    cases hmore : tokenize st (String.ofList rest) with
    | error e =>
      rw [hmore] at hname
      cases hname
    | ok more =>
      rw [hmore] at hname
      have hfirst := (List.cons.inj (Except.ok.inj hname)).1
      exact Lexeme.reservedToken_ne st hword _ _ hfirst
  · intro word hword rest htext
    rw [htext]
    exact Lexeme.tokenize_reserved st hword rest

/-- A name that starts with a keyword, goes on with another one and ends with a digit. -/
theorem tokenize_identifier_of_keywords :
    "return" ∈ Stage.reserved ∧ Lexeme.isName "returnif4".toList = true ∧
    tokenize .returns "returnif4" =
      .ok [Token.make "return" none 0, Token.make "if" none 6,
        Token.make "<number>" (some (.int 4)) 8] := by
  have hword : "return" ∈ Stage.reserved := by decide
  refine ⟨hword, by decide, ?_⟩
  exact (tokenize_identifier .returns ⟨"returnif4", by decide⟩).2 "return" hword "if4" rfl

end Stepwise
