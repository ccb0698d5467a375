import Mathlib.Data.List.Forall2
import Mathlib.Data.List.TakeWhile
import Mathlib.Data.Nat.Digits.Defs
import Stepwise.Proofs.ParserImage

/-!
# Texts are made of their lexemes

Nothing of a text is lost when it is cut: the lexemes, one behind the other, are the text, and
from `blocks` on each lexeme that makes a token can be read off its token
(`tokenize_gives_back`).

- `LexClass.Form`: what the lexemes of a class look like. Where a class starts it reaches to the
  end of characters of this form (`form_of_reach`);
- `Lexeme.doubled`: the characters between the quotes of a text, with its own quotes doubled;
- `Lexeme.Cuts`: all lexemes of a text, with those that make no token. Scanning a text gives
  the lexemes of its cut that make one (`scanFrom_eq_ok_iff`);
- `Lexeme.isGap`: the lexemes that make no token, by their characters alone;
- `Lexeme.GivesBack`: the token says which characters the lexeme has, one rule for each kind of
  token.
-/

namespace Stepwise

namespace Lexeme

/-! ## What lexemes look like -/

/-- The characters with every quote written twice. -/
def doubled (cs : List Char) : List Char :=
  cs.flatMap fun c => if c = '"' then ['"', '"'] else [c]

theorem doubled_cons_quote (cs : List Char) : doubled ('"' :: cs) = '"' :: '"' :: doubled cs := rfl

theorem doubled_cons {c : Char} (hc : c ≠ '"') (cs : List Char) :
    doubled (c :: cs) = c :: doubled cs := by
  simp [doubled, hc]

/-- Doubled quotes are read as single ones. -/
theorem undouble_doubled (cs : List Char) : undouble (doubled cs) = cs := by
  induction cs with
  | nil => rfl
  | cons c cs ih =>
    by_cases hc : c = '"'
    · subst hc
      rw [doubled_cons_quote, undouble, ih]
    · rw [doubled_cons hc, undouble, ih]
      rintro rest rfl
      exact absurd rfl hc

/-- A number with a point: digits before and behind it, one at least. -/
def isPointed (cs : List Char) : Prop :=
  ∃ whole fraction, cs = whole ++ '.' :: fraction ∧ whole ++ fraction ≠ [] ∧
    ∀ c ∈ whole ++ fraction, Text.isDigit c = true

end Lexeme

/-- The characters that a lexeme of the class is made of. -/
def LexClass.Form : LexClass → List Char → Prop
  | .comment, cs => ∃ body, cs = '/' :: '/' :: (body ++ ['\n']) ∧ '\n' ∉ body
  | .blank, cs => cs ≠ [] ∧ ∀ c ∈ cs, Text.isBlank c = true
  | .number, cs => Lexeme.isPointed cs ∨ cs ≠ [] ∧ ∀ c ∈ cs, Text.isDigit c = true
  | .string, cs => ∃ value, cs = '"' :: (Lexeme.doubled value ++ ['"'])
  | .boolean, cs => ∃ b : Bool, cs = (if b then "true" else "false").toList
  | .word spelling, cs => cs = spelling.toList
  | .name, cs => Lexeme.isName cs = true

theorem Stage.booleans_of_blocks {st : Stage} (hst : st.has .blocks = true) :
    st.has .booleans = true := by
  cases st with
  | expressions | assignments | booleans | conditions => cases hst
  | blocks | scopes | functions | returns => rfl

namespace Lexeme

/-! ## How far they reach -/

/-- The class reaches to the end of characters of its form. -/
def Reaches (kind : LexClass) (cs : List Char) : Prop :=
  ∃ text rest, cs = text ++ rest ∧ kind.reach cs = text.length ∧ kind.Form text

theorem reaches_takeWhile {kind : LexClass} {p : Char → Bool} {cs : List Char}
    (hreach : kind.reach cs = (cs.takeWhile p).length) (hform : kind.Form (cs.takeWhile p)) :
    Reaches kind cs :=
  ⟨cs.takeWhile p, cs.dropWhile p, List.takeWhile_append_dropWhile.symm, hreach, hform⟩

/-- A comment reaches to its line end, and the line end belongs to it. -/
theorem comment_reaches {cs : List Char} (h : commentReach cs ≠ 0) : Reaches .comment cs := by
  unfold commentReach at h
  split at h
  · rename_i rest
    have hsplit : rest.takeWhile (· != '\n') ++ rest.dropWhile (· != '\n') = rest :=
      List.takeWhile_append_dropWhile
    cases hdrop : rest.dropWhile (· != '\n') with
    -- without a line end the text is no comment: the reach is zero
    | nil =>
      rw [hdrop, List.append_nil] at hsplit
      simp [hsplit] at h
    | cons c more =>
      -- the first character behind the body can only be a line end
      have hc : c = '\n' := by
        have hhead := List.head?_dropWhile_not (· != '\n') rest
        simpa [hdrop] using hhead
      rw [hdrop, hc] at hsplit
      have hlength : (rest.takeWhile (· != '\n')).length < rest.length := by
        conv_rhs => rw [← hsplit]
        simp
      have hbody : '\n' ∉ rest.takeWhile (· != '\n') := by
        intro hmem
        simpa using List.mem_takeWhile_imp hmem
      refine ⟨'/' :: '/' :: (rest.takeWhile (· != '\n') ++ ['\n']), more, ?_, ?_, _, rfl, hbody⟩
      · rw [List.cons_append, List.cons_append, List.append_assoc, List.singleton_append, hsplit]
      · simp [LexClass.reach, commentReach, hlength]
  · exact absurd rfl h

/-- A number reaches over its digits, and over a point among them. -/
theorem number_reaches {cs : List Char} (h : numberReach cs ≠ 0) : Reaches .number cs := by
  have hsplit : cs.takeWhile Text.isDigit ++ cs.dropWhile Text.isDigit = cs :=
    List.takeWhile_append_dropWhile
  have hdrop : cs.drop (cs.takeWhile Text.isDigit).length = cs.dropWhile Text.isDigit := by
    have hleft := congrArg (List.drop (cs.takeWhile Text.isDigit).length) hsplit
    rw [List.drop_left] at hleft
    exact hleft.symm
  have hdigits : ∀ cs : List Char, ∀ c ∈ cs.takeWhile Text.isDigit, Text.isDigit c = true :=
    fun _ _ hc => List.mem_takeWhile_imp hc
  obtain ⟨n, hn⟩ : ∃ n, numberReach cs = n := ⟨_, rfl⟩
  have hreach := hn.symm
  simp only [numberReach, hdrop] at hreach
  split at hreach
  · rename_i rest hpoint
    -- a point behind the digits: it belongs to the number if there is a digit on either side
    have hne : (cs.takeWhile Text.isDigit).length + (rest.takeWhile Text.isDigit).length ≠ 0 := by
      intro hzero
      rw [if_pos hzero] at hreach
      exact h (hn.trans hreach)
    rw [if_neg hne] at hreach
    refine ⟨cs.takeWhile Text.isDigit ++ '.' :: rest.takeWhile Text.isDigit,
      rest.dropWhile Text.isDigit, ?_, ?_, .inl ⟨_, _, rfl, ?_, ?_⟩⟩
    · rw [List.append_assoc, List.cons_append, List.takeWhile_append_dropWhile, ← hpoint, hsplit]
    · show numberReach cs = _
      rw [hn, hreach, List.length_append, List.length_cons]
      omega
    · intro hnil
      rw [← List.length_append, hnil] at hne
      exact hne rfl
    · intro c hc
      rcases List.mem_append.1 hc with hc | hc
      · exact hdigits _ c hc
      · exact hdigits _ c hc
  · have hne : cs.takeWhile Text.isDigit ≠ [] := by
      intro hnil
      rw [hnil] at hreach
      exact h (hn.trans hreach)
    exact reaches_takeWhile (hn.trans hreach) (.inr ⟨hne, hdigits cs⟩)

/-- Up to the closing quote all quotes are doubled. -/
theorem stringRest_doubled {cs : List Char} {n : Nat} (h : stringRest cs = some n) :
    ∃ value rest, cs = doubled value ++ '"' :: rest ∧ n = (doubled value).length + 1 := by
  induction cs using stringRest.induct generalizing n with
  | case1 => cases h
  | case2 rest k hk ih =>
    simp only [stringRest, hk] at h
    cases h
    obtain ⟨value, more, rfl, rfl⟩ := ih hk
    exact ⟨'"' :: value, more, rfl, rfl⟩
  | case3 rest hk =>
    -- the pair is no pair: no quote behind it closes the text
    simp only [stringRest, hk] at h
    cases h
    exact ⟨[], '"' :: rest, rfl, rfl⟩
  | case4 rest hsingle =>
    rw [stringRest] at h
    · cases h
      exact ⟨[], rest, rfl, rfl⟩
    · exact hsingle
  | case5 c rest hpair hquote ih =>
    have hc : c ≠ '"' := by
      rintro rfl
      exact hquote rfl
    rw [stringRest] at h
    · obtain ⟨k, hk, rfl⟩ := Option.map_eq_some_iff.1 h
      obtain ⟨value, more, rfl, rfl⟩ := ih hk
      exact ⟨c :: value, more, by rw [doubled_cons hc]; rfl, by rw [doubled_cons hc]; rfl⟩
    · exact hpair
    · exact hquote

/-- A text between quotes reaches to the quote that closes it. -/
theorem string_reaches {cs : List Char} (h : stringReach cs ≠ 0) : Reaches .string cs := by
  unfold stringReach at h
  split at h
  · rename_i rest
    cases hrest : stringRest rest with
    | none => simp [hrest] at h
    | some n =>
      obtain ⟨value, more, rfl, rfl⟩ := stringRest_doubled hrest
      refine ⟨'"' :: (doubled value ++ ['"']), more, by simp, ?_, value, rfl⟩
      simp [LexClass.reach, stringReach, hrest]
  · exact absurd rfl h

/-- A reserved word or sign reaches over its spelling. -/
theorem word_reaches {spelling : String} {cs : List Char} (h : wordReach spelling cs ≠ 0) :
    ∃ rest, cs = spelling.toList ++ rest ∧ wordReach spelling cs = spelling.toList.length := by
  unfold wordReach at h ⊢
  split at h
  · rename_i hprefix
    obtain ⟨rest, rfl⟩ := List.isPrefixOf_iff_prefix.1 hprefix
    refine ⟨rest, rfl, ?_⟩
    rw [if_pos hprefix, String.length_toList]
  · exact absurd rfl h

/-- A truth value is one of the two words. -/
theorem boolean_reaches {cs : List Char} (h : (LexClass.boolean).reach cs ≠ 0) :
    Reaches .boolean cs := by
  by_cases htrue : wordReach "true" cs = 0
  · have hfalse : wordReach "false" cs ≠ 0 := by
      intro hfalse
      exact h (by simp [LexClass.reach, htrue, hfalse])
    obtain ⟨rest, hcs, hlength⟩ := word_reaches hfalse
    exact ⟨"false".toList, rest, hcs, by simp [LexClass.reach, htrue, hlength], false, rfl⟩
  · obtain ⟨rest, rfl, hlength⟩ := word_reaches htrue
    have hfalse : wordReach "false" ("true".toList ++ rest) = 0 := rfl
    refine ⟨"true".toList, rest, rfl, ?_, true, rfl⟩
    rw [LexClass.reach, hfalse, hlength]
    rfl

/-- A name reaches to the end of the characters that names are made of. -/
theorem name_reaches {cs : List Char} (h : nameReach cs ≠ 0) : Reaches .name cs := by
  cases cs with
  | nil => exact absurd rfl h
  | cons c rest =>
    have hc : isNameStart c = true := by
      by_contra hc
      exact h (by simp [nameReach, hc])
    refine ⟨c :: rest.takeWhile isNamePart, rest.dropWhile isNamePart, ?_, ?_, ?_⟩
    · rw [List.cons_append, List.takeWhile_append_dropWhile]
    · simp [LexClass.reach, nameReach, hc]
    · simp [LexClass.Form, isName, hc]

/-- **Where a class starts, it reaches to the end of characters of its form.** -/
theorem form_of_reach {kind : LexClass} {cs : List Char} (h : kind.reach cs ≠ 0) :
    Reaches kind cs := by
  cases kind with
  | comment => exact comment_reaches h
  | blank =>
    refine reaches_takeWhile rfl ⟨?_, fun c hc => List.mem_takeWhile_imp hc⟩
    intro hnil
    exact h (by simp [LexClass.reach, hnil])
  | number => exact number_reaches h
  | string => exact string_reaches h
  | boolean => exact boolean_reaches h
  | word spelling =>
    obtain ⟨rest, hcs, hlength⟩ := word_reaches h
    exact ⟨spelling.toList, rest, hcs, hlength, rfl⟩
  | name => exact name_reaches h

section Classify

variable {st : Stage} {kind : LexClass} {text rest : List Char}

/-- The first lexeme of a text, and what stands behind it. -/
theorem exists_text_of_classify {cs : List Char} {n : Nat} (h : classify st cs = some (kind, n)) :
    ∃ text rest, cs = text ++ rest ∧ n = text.length ∧ kind.Form text := by
  obtain ⟨-, rfl, hne⟩ := classify_sound h
  exact form_of_reach hne

/-- What is cut has the form of its class. -/
theorem form_of_classify (h : classify st (text ++ rest) = some (kind, text.length)) :
    kind.Form text := by
  obtain ⟨text', rest', htext, hlength, hform⟩ := exists_text_of_classify h
  obtain ⟨rfl, -⟩ := List.append_inj htext hlength
  exact hform

/-- What is cut is not empty. -/
theorem ne_nil_of_classify (h : classify st (text ++ rest) = some (kind, text.length)) :
    text ≠ [] := by
  rintro rfl
  obtain ⟨-, -, hne⟩ := classify_sound h
  exact hne rfl

end Classify

/-! ## Cutting -/

/-- Characters that belong to a lexeme already cut are passed over. -/
theorem scanFrom_pending (st : Stage) (done rest : List Char) (position : Nat) :
    scanFrom st position done.length (done ++ rest) =
      scanFrom st (position + done.length) 0 rest := by
  induction done generalizing position with
  | nil => rfl
  | cons c done ih =>
    show scanFrom st (position + 1) done.length (done ++ rest) = _
    rw [ih, List.length_cons, Nat.add_right_comm, Nat.add_assoc]

/-- One lexeme is cut off, and the rest is cut behind it. -/
theorem scanFrom_cut {st : Stage} {kind : LexClass} {text rest : List Char}
    (h : classify st (text ++ rest) = some (kind, text.length)) (position : Nat) :
    scanFrom st position 0 (text ++ rest) = (do
      let later ← scanFrom st (position + text.length) 0 rest
      if st.skips kind then return later else return ⟨kind, text, position⟩ :: later) := by
  obtain ⟨c, text, rfl⟩ := List.exists_cons_of_ne_nil (ne_nil_of_classify h)
  rw [List.cons_append] at h ⊢
  simp only [scanFrom, h, List.length_cons, Nat.add_one_sub_one]
  rw [scanFrom_pending, Nat.add_right_comm, Nat.add_assoc]
  simp

/-- The lexemes of the text `cs` in front of which stand `position` characters, also those that
make no token. -/
inductive Cuts (st : Stage) : Nat → List Char → List Lexeme → Prop
  | nil (position : Nat) : Cuts st position [] []
  | cons {position : Nat} {kind : LexClass} {text rest : List Char} {xs : List Lexeme} :
      classify st (text ++ rest) = some (kind, text.length) →
      Cuts st (position + text.length) rest xs →
      Cuts st position (text ++ rest) (⟨kind, text, position⟩ :: xs)

/-- The lexeme makes a token. -/
def kept (st : Stage) (x : Lexeme) : Bool := !st.skips x.kind

/-- Scanning gives the lexemes of the cut that make a token. -/
theorem Cuts.scanFrom_eq {st : Stage} {position : Nat} {cs : List Char} {xs : List Lexeme}
    (h : Cuts st position cs xs) : scanFrom st position 0 cs = .ok (xs.filter (kept st)) := by
  induction h with
  | nil => rfl
  | @cons position kind text rest xs hclass _ ih =>
    rw [scanFrom_cut hclass, ih]
    show (if st.skips kind = true then _ else _) = _
    by_cases hskips : st.skips kind = true
    · rw [if_pos hskips, List.filter_cons_of_neg (by simp [kept, hskips])]
      rfl
    · rw [if_neg hskips, List.filter_cons_of_pos (by simp [kept, hskips])]
      rfl

/-- A text without an illegal character has a cut. The induction is on its length: what is behind
the first lexeme is shorter. -/
theorem exists_cuts {st : Stage} (k : Nat) : ∀ {cs : List Char} {position : Nat}
    {ys : List Lexeme}, cs.length ≤ k → scanFrom st position 0 cs = .ok ys →
    ∃ xs, Cuts st position cs xs := by
  induction k with
  | zero =>
    intro cs position ys hk _
    obtain rfl := List.eq_nil_of_length_eq_zero (Nat.le_zero.1 hk)
    exact ⟨[], .nil position⟩
  | succ k ih =>
    intro cs position ys hk h
    cases hclass : classify st cs with
    | none =>
      -- a character that no class accepts would have made the scan fail
      cases cs with
      | nil => exact ⟨[], .nil position⟩
      | cons c rest =>
        simp only [scanFrom, hclass] at h
        cases h
    | some found =>
      obtain ⟨kind, n⟩ := found
      obtain ⟨text, rest, rfl, rfl, -⟩ := exists_text_of_classify hclass
      have hlength := List.length_pos_iff.2 (ne_nil_of_classify hclass)
      rw [List.length_append] at hk
      rw [scanFrom_cut hclass] at h
      cases hlater : scanFrom st (position + text.length) 0 rest with
      | error e =>
        rw [hlater] at h
        cases h
      | ok later =>
        obtain ⟨xs, hxs⟩ := ih (by omega) hlater
        exact ⟨_, .cons hclass hxs⟩

/-- **Scanning gives the lexemes of the cut that make a token.** -/
theorem scanFrom_eq_ok_iff {st : Stage} {position : Nat} {cs : List Char} {ys : List Lexeme} :
    scanFrom st position 0 cs = .ok ys ↔
      ∃ xs, Cuts st position cs xs ∧ ys = xs.filter (kept st) := by
  constructor
  · intro h
    obtain ⟨xs, hxs⟩ := exists_cuts cs.length (Nat.le_refl _) h
    exact ⟨xs, hxs, Except.ok.inj (h.symm.trans hxs.scanFrom_eq)⟩
  · rintro ⟨xs, hxs, rfl⟩
    exact hxs.scanFrom_eq

namespace Cuts

variable {st : Stage} {position : Nat} {cs : List Char} {xs : List Lexeme}

/-- The lexemes, one behind the other, are the text. -/
theorem flatten_text (h : Cuts st position cs xs) : (xs.map text).flatten = cs := by
  induction h with
  | nil => rfl
  | cons _ _ ih => rw [List.map_cons, List.flatten_cons, ih]

/-- Every lexeme is the first one of some text. -/
theorem classified (h : Cuts st position cs xs) {x : Lexeme} (hx : x ∈ xs) :
    ∃ rest, classify st (x.text ++ rest) = some (x.kind, x.text.length) := by
  induction h with
  | nil => cases hx
  | cons hclass _ ih =>
    rcases List.mem_cons.1 hx with rfl | hx
    · exact ⟨_, hclass⟩
    · exact ih hx

/-- A lexeme stands behind all the characters of the lexemes before it. -/
theorem position_eq (h : Cuts st position cs xs) {before after : List Lexeme} {x : Lexeme}
    (hxs : xs = before ++ x :: after) :
    x.position = position + (before.map fun y => y.text.length).sum := by
  induction h generalizing before with
  | nil => simp at hxs
  | cons hclass _ ih =>
    cases before with
    | nil =>
      obtain ⟨rfl, rfl⟩ := List.cons.inj hxs
      rfl
    | cons y before =>
      obtain ⟨rfl, hrest⟩ := List.cons.inj hxs
      rw [ih hrest, List.map_cons, List.sum_cons, Nat.add_assoc]

theorem le_position (h : Cuts st position cs xs) {x : Lexeme} (hx : x ∈ xs) :
    position ≤ x.position := by
  obtain ⟨before, after, hxs⟩ := List.append_of_mem hx
  rw [h.position_eq hxs]
  exact Nat.le_add_right _ _

/-- The lexemes stand one behind the other. -/
theorem positions_increase (h : Cuts st position cs xs) :
    xs.Pairwise fun x y => x.position < y.position := by
  induction h with
  | nil => exact .nil
  | cons hclass hrest ih =>
    refine .cons (fun y hy => ?_) ih
    have hpos := List.length_pos_iff.2 (ne_nil_of_classify hclass)
    exact Nat.lt_of_lt_of_le (Nat.lt_add_of_pos_right hpos) (hrest.le_position hy)

end Cuts

/-! ## Gaps -/

/-- White space and nothing else. -/
def isBlankRun (cs : List Char) : Bool :=
  !cs.isEmpty && cs.all Text.isBlank

/-- Two slashes and what follows up to the first line end, which is the last character. -/
def isComment : List Char → Bool
  | '/' :: '/' :: rest => rest.getLast? == some '\n' && !rest.dropLast.contains '\n'
  | _ => false

/-- A lexeme between tokens. -/
def isGap (cs : List Char) : Bool :=
  isBlankRun cs || isComment cs

/-- A comment by its characters: two slashes, and a line end at the end alone. -/
theorem isComment_iff {cs : List Char} :
    isComment cs = true ↔ (LexClass.comment).Form cs := by
  constructor
  · intro h
    unfold isComment at h
    split at h
    · rename_i rest
      rw [Bool.and_eq_true, beq_iff_eq, Bool.not_eq_true'] at h
      obtain ⟨hlast, hbody⟩ := h
      obtain ⟨body, rfl⟩ := List.getLast?_eq_some_iff.1 hlast
      rw [List.dropLast_concat] at hbody
      exact ⟨body, rfl, by simpa using hbody⟩
    · cases h
  · rintro ⟨body, rfl, hbody⟩
    simp [isComment, hbody]

theorem isBlankRun_iff {cs : List Char} : isBlankRun cs = true ↔ (LexClass.blank).Form cs := by
  simp [isBlankRun, LexClass.Form]

/-- Comments and white space are tried before all other classes. -/
theorem classify_other {st : Stage} {cs : List Char} {kind : LexClass} {n : Nat}
    (h : classify st cs = some (kind, n)) (hcomment : kind ≠ .comment) (hblank : kind ≠ .blank) :
    commentReach cs = 0 ∧ (cs.takeWhile Text.isBlank).length = 0 := by
  obtain ⟨before, found, after, hclasses, hfound, hbefore⟩ := List.findSome?_eq_some_iff.1 h
  have hkind : found = kind := by
    dsimp only at hfound
    split at hfound
    · cases hfound
    · exact congrArg Prod.fst (Option.some.inj hfound)
  have hzero : ∀ k ∈ before, k.reach cs = 0 := by
    intro k hk
    by_contra hne
    simpa [hne] using hbefore k hk
  -- the first two classes are those of comments and white space: both stand before the one found
  match before, hclasses with
  | [], hclasses => exact absurd (hkind.symm.trans (List.cons.inj hclasses).1.symm) hcomment
  | [_], hclasses =>
    have hsecond := (List.cons.inj (List.cons.inj hclasses).2).1
    exact absurd (hkind.symm.trans hsecond.symm) hblank
  | first :: second :: more, hclasses =>
    obtain ⟨rfl, htail⟩ := List.cons.inj hclasses
    obtain ⟨rfl, -⟩ := List.cons.inj htail
    exact ⟨hzero .comment (by simp), hzero .blank (by simp)⟩

/-- A comment ends where it does, whatever stands behind it. -/
theorem commentReach_of_form {text : List Char} (h : (LexClass.comment).Form text)
    (rest : List Char) : commentReach (text ++ rest) = text.length := by
  obtain ⟨body, rfl, hbody⟩ := h
  have htake : (body ++ '\n' :: rest).takeWhile (· != '\n') = body := by
    rw [List.takeWhile_append_of_pos]
    · simp
    · intro c hc
      rw [bne_iff_ne]
      rintro rfl
      exact hbody hc
  simp [commentReach, htake]

/-- **The gaps are the comments and the white space**, and no token looks like one. -/
theorem isGap_iff {st : Stage} {kind : LexClass} {text rest : List Char}
    (h : classify st (text ++ rest) = some (kind, text.length)) :
    isGap text = true ↔ kind = .comment ∨ kind = .blank := by
  have hform := form_of_classify h
  constructor
  · intro hgap
    by_contra hkind
    rw [not_or] at hkind
    -- comments and white space are tried first, so that another class means that neither is here
    obtain ⟨hcomment, hblank⟩ := classify_other h hkind.1 hkind.2
    rw [isGap, Bool.or_eq_true] at hgap
    rcases hgap with hgap | hgap
    · obtain ⟨-, hall⟩ := isBlankRun_iff.1 hgap
      obtain ⟨c, cs, rfl⟩ := List.exists_cons_of_ne_nil (ne_nil_of_classify h)
      simp [hall c (by simp)] at hblank
    · rw [commentReach_of_form (isComment_iff.1 hgap)] at hcomment
      exact ne_nil_of_classify h (List.eq_nil_of_length_eq_zero hcomment)
  · rintro (rfl | rfl)
    · rw [isGap, isComment_iff.2 hform, Bool.or_true]
    · rw [isGap, isBlankRun_iff.2 hform, Bool.true_or]

/-- From `blocks` on the lexemes without a token are the gaps. -/
theorem skips_eq_isGap {st : Stage} (hst : st.has .blocks = true) {kind : LexClass}
    {text rest : List Char} (h : classify st (text ++ rest) = some (kind, text.length)) :
    st.skips kind = isGap text := by
  rw [Bool.eq_iff_iff, isGap_iff h]
  cases kind with
  | comment | blank => simp [Stage.skips, hst]
  | number | string | boolean | word | name => simp [Stage.skips]

/-! ## Tokens give their lexemes back -/

/-- The digits of a numeral, most significant first, are those of its number. -/
theorem number_eq_ofDigits {cs : List Char} {ds : List Nat}
    (h : cs.map Text.digit? = ds.map some) : Text.number cs = Nat.ofDigits 10 ds.reverse := by
  -- with any number in front, so that the induction goes through
  have hfold : ∀ n : Nat, cs.foldl (fun n c => 10 * n + (Text.digit? c).getD 0) n =
      n * 10 ^ ds.length + Nat.ofDigits 10 ds.reverse := by
    induction cs generalizing ds with
    | nil =>
      intro n
      cases ds with
      | nil => simp
      | cons d ds => simp at h
    | cons c cs ih =>
      intro n
      cases ds with
      | nil => simp at h
      | cons d ds =>
        rw [List.map_cons, List.map_cons, List.cons.injEq] at h
        rw [List.foldl_cons, ih h.2, h.1, Option.getD_some, List.reverse_cons,
          Nat.ofDigits_append, Nat.ofDigits_singleton, List.length_reverse, List.length_cons]
        ring
  simpa [Text.number] using hfold 0

/-- The token says which characters the lexeme has, and where it stands. -/
inductive GivesBack (st : Stage) (x : Lexeme) : Token → Prop
  /-- Keywords and operators by their tag. -/
  | word {tag : String} : tag ∈ Stage.keywords ++ st.operators → x.text = tag.toList →
      GivesBack st x (Token.make tag none x.position)
  /-- Names by their value. -/
  | name {name : String} : x.text = name.toList →
      GivesBack st x (Token.make "<identifier>" (some (.text name)) x.position)
  /-- Truth values by the word for them. -/
  | truth (b : Bool) : x.text = (if b then "true" else "false").toList →
      GivesBack st x (Token.make "<boolean>" (some (.int (if b then 1 else 0))) x.position)
  /-- Texts by their value between quotes, its own quotes doubled. -/
  | string {value : String} : x.text = '"' :: (doubled value.toList ++ ['"']) →
      GivesBack st x (Token.make "<string>" (some (.text value)) x.position)
  /-- Numbers without a point by digits that write their value. -/
  | integer {digits : List Nat} : digits ≠ [] → x.text.map Text.digit? = digits.map some →
      GivesBack st x
        (Token.make "<number>" (some (.int (Nat.ofDigits 10 digits.reverse : Nat))) x.position)
  /-- Numbers with a point are doubles, and so only near what their characters write. -/
  | pointed : isPointed x.text → GivesBack st x
      (Token.make "<number>" (some (.float ((Number.ofPointed x.text).toFloat false))) x.position)

theorem GivesBack.position {st : Stage} {x : Lexeme} {t : Token} (h : GivesBack st x t) :
    t.field "position" = .ok (.int x.position) := by
  cases h <;> rfl

theorem GivesBack.positions {st : Stage} {xs : List Lexeme} {ts : List Token}
    (h : List.Forall₂ (GivesBack st) xs ts) :
    ts.map (fun t => t.field "position") = (xs.map Lexeme.position).map fun p => .ok (.int p) := by
  induction h with
  | nil => rfl
  | cons hback _ ih => rw [List.map_cons, List.map_cons, List.map_cons, ih, hback.position]

/-- From `blocks` on the tags of literals are in angle brackets. -/
theorem literalTag_of_blocks {st : Stage} (hst : st.has .blocks = true) (word : String) :
    st.literalTag word = "<" ++ word ++ ">" := by
  simp [Stage.literalTag, hst]

/-- Digits have values. -/
theorem exists_digits {cs : List Char} (h : ∀ c ∈ cs, Text.isDigit c = true) :
    ∃ ds : List Nat, cs.map Text.digit? = ds.map some := by
  refine ⟨cs.map fun c => (Text.digit? c).getD 0, ?_⟩
  rw [List.map_map]
  refine List.map_congr_left fun c hc => ?_
  have hsome : (Text.digit? c).isSome = true := h c hc
  cases hdigit : Text.digit? c with
  | none => rw [hdigit] at hsome; cases hsome
  | some d => simp [hdigit]

/-- A number gives its lexeme back: the digits of an integer, and the text of a number with a
point. -/
theorem numeral_gives_back {st : Stage} {text : List Char} {position : Nat} {v : Value}
    (hform : (LexClass.number).Form text) (h : numeral text = .ok v) :
    GivesBack st ⟨.number, text, position⟩ (Token.make "<number>" (some v) position) := by
  rcases hform with hpointed | ⟨hne, hdigits⟩
  -- a point is kept, so that the text is read as a double
  · have hpoint : text.contains '.' = true := by
      obtain ⟨whole, fraction, rfl, -, -⟩ := hpointed
      simp
    rw [numeral, if_pos hpoint] at h
    cases h
    exact .pointed hpointed
  -- without a point there are digits alone
  · have hpoint : ¬ text.contains '.' = true := by
      intro hmem
      exact absurd (hdigits '.' (by simpa using hmem)) (by decide)
    obtain ⟨ds, hds⟩ := exists_digits hdigits
    rw [numeral, if_neg hpoint] at h
    -- a numeral with too many digits is refused
    split at h
    · cases h
    · cases h
      rw [number_eq_ofDigits hds]
      have hdsne : ds ≠ [] := by
        rintro rfl
        exact hne (List.map_eq_nil_iff.1 hds)
      exact GivesBack.integer (x := ⟨.number, text, position⟩) hdsne hds

/-- The token of a keyword or an operator has its tag and no value. -/
theorem token_word {st : Stage} (hst : st.has .blocks = true) (tag : String) (text : List Char)
    (position : Nat) :
    token st ⟨.word tag, text, position⟩ = .ok (Token.make tag none position) := by
  by_cases hnull : tag = "null"
  · subst hnull
    simp only [token, hst, if_true]
    rfl
  · simp only [token, hst, if_true]
    rfl

/-- **A token gives its lexeme back**, one case for each class of lexemes. -/
theorem token_gives_back {st : Stage} (hst : st.has .blocks = true) {kind : LexClass}
    {text : List Char} (hform : kind.Form text) (hmem : kind ∈ st.classes)
    (hkept : st.skips kind = false) {position : Nat} {t : Token}
    (h : token st ⟨kind, text, position⟩ = .ok t) : GivesBack st ⟨kind, text, position⟩ t := by
  have htag : ∀ word, st.literalTag word = "<" ++ word ++ ">" := literalTag_of_blocks hst
  cases kind with
  | comment => exact absurd (hst.symm.trans hkept) (by simp)
  | blank => cases hkept
  | number =>
    cases hvalue : numeral text with
    | error e =>
      simp only [token, hvalue] at h
      cases h
    | ok v =>
      simp only [token, hvalue, Stage.numberTag, htag] at h
      cases h
      exact numeral_gives_back hform hvalue
  | string =>
    obtain ⟨value, rfl⟩ := hform
    simp only [token, Stage.stringTag, htag] at h
    cases h
    -- the quotes are taken off and doubled ones made single, which undoes the doubling
    have hvalue : unquote ('"' :: (doubled value ++ ['"'])) = String.ofList value := by
      simp [unquote, undouble_doubled]
    rw [hvalue]
    exact .string (by simp)
  | boolean =>
    obtain ⟨b, rfl⟩ := hform
    have hbooleans : st.has .booleans = true := Stage.booleans_of_blocks hst
    simp only [token, Stage.booleanTag, htag, truthValue, hbooleans, if_true] at h
    cases h
    cases b with
    | true => exact .truth true rfl
    | false => exact .truth false rfl
  | word spelling =>
    cases (token_word hst spelling text position).symm.trans h
    exact .word (word_mem hmem) hform
  | name =>
    simp only [token, Stage.nameTag, htag] at h
    cases h
    exact .name (by simp)

/-- The lexemes of a cut that make tokens are given back by these. -/
theorem Cuts.give_back {st : Stage} (hst : st.has .blocks = true) {position : Nat}
    {cs : List Char} {xs : List Lexeme} (h : Cuts st position cs xs) {ts : List Token}
    (hts : List.Forall₂ (fun x t => token st x = .ok t) (xs.filter (kept st)) ts) :
    List.Forall₂ (GivesBack st) (xs.filter (kept st)) ts := by
  have hback : ∀ x ∈ xs.filter (kept st), ∀ t, token st x = .ok t → GivesBack st x t := by
    intro x hx t ht
    obtain ⟨hmem, hkept⟩ := List.mem_filter.1 hx
    obtain ⟨rest, hclass⟩ := h.classified hmem
    obtain ⟨hkind, -⟩ := classify_sound hclass
    exact token_gives_back hst (form_of_classify hclass) hkind (by simpa [kept] using hkept) ht
  exact ((List.forall₂_and_left _ _).2 ⟨hback, hts⟩).imp fun x t hx => hx.1 t hx.2

end Lexeme

/-- A list is translated if and only if each of its members is. -/
theorem mapM_eq_ok_iff {α β : Type} {f : α → Except Fault β} {xs : List α} {ys : List β} :
    xs.mapM f = .ok ys ↔ List.Forall₂ (fun x y => f x = .ok y) xs ys := by
  induction xs generalizing ys with
  | nil =>
    rw [List.mapM_nil, List.forall₂_nil_left_iff]
    constructor
    · rintro ⟨⟩
      rfl
    · rintro rfl
      rfl
  | cons x xs ih =>
    rw [List.mapM_cons, List.forall₂_cons_left_iff]
    cases hx : f x with
    | error e =>
      constructor
      · rintro ⟨⟩
      · rintro ⟨y, ys, hy, -, -⟩
        cases hy
    | ok y =>
      cases hxs : xs.mapM f with
      | error e =>
        constructor
        · rintro ⟨⟩
        · rintro ⟨y', ys', -, hys, -⟩
          cases hxs.symm.trans (ih.2 hys)
      | ok ys' =>
        constructor
        · rintro ⟨⟩
          exact ⟨y, ys', rfl, ih.1 hxs, rfl⟩
        · rintro ⟨y', ys'', hy, hys, rfl⟩
          cases hy
          cases hxs.symm.trans (ih.2 hys)
          rfl

/-- **A text can be put together again from its tokens**, but for the white space and the comments
between them. From `blocks` on the text is a sequence of lexemes with one character at least. Each
stands behind all the characters of those before it. The lexemes that are neither white space nor
comments are, in order, those of the tokens, and each is given back by its token. In particular
the positions of the tokens increase. -/
theorem tokenize_gives_back {st : Stage} (hst : st.has .blocks = true) {code : String}
    {ts : List Token} (h : tokenize st code = .ok ts) :
    ∃ xs : List Lexeme,
      (xs.map Lexeme.text).flatten = code.toList ∧
      (∀ x ∈ xs, x.text ≠ []) ∧
      (∀ before x after, xs = before ++ x :: after →
        x.position = (before.map fun y => y.text.length).sum) ∧
      List.Forall₂ (Lexeme.GivesBack st) (xs.filter fun x => !Lexeme.isGap x.text) ts ∧
      ∃ positions : List Nat, positions.Pairwise (· < ·) ∧
        ts.map (fun t => t.field "position") = positions.map fun p => .ok (.int p) := by
  cases hscan : Lexeme.scan st code.toList with
  | error e =>
    rw [tokenize, hscan] at h
    cases h
  | ok ys =>
    rw [tokenize, hscan] at h
    obtain ⟨xs, hxs, rfl⟩ := Lexeme.scanFrom_eq_ok_iff.1 hscan
    -- the lexemes without a token are the gaps, so that the tokens belong to the others
    have hgaps : xs.filter (Lexeme.kept st) = xs.filter fun x => !Lexeme.isGap x.text := by
      refine List.filter_congr fun x hx => ?_
      obtain ⟨rest, hclass⟩ := hxs.classified hx
      exact congrArg (!·) (Lexeme.skips_eq_isGap hst hclass)
    have hback := hxs.give_back hst (mapM_eq_ok_iff.1 h)
    have hincrease : ((xs.filter (Lexeme.kept st)).map Lexeme.position).Pairwise (· < ·) :=
      List.pairwise_map.2 (hxs.positions_increase.sublist List.filter_sublist)
    refine ⟨xs, hxs.flatten_text, fun x hx => ?_, fun before x after hsplit => ?_, hgaps ▸ hback,
      _, hincrease, Lexeme.GivesBack.positions hback⟩
    · obtain ⟨rest, hclass⟩ := hxs.classified hx
      exact Lexeme.ne_nil_of_classify hclass
    · rw [hxs.position_eq hsplit, Nat.zero_add]

/-- A text with doubled quotes, a comment that holds quotes, and digits of two scripts. -/
def mixedText : String := "if \"a\"\"\" // \"x\"\n\u06612;true"

/-- Its tokens. -/
def mixedTokens : List Token :=
  [Token.make "if" none 0, Token.make "<string>" (some (.text "a\"")) 3,
   Token.make "<number>" (some (.int 12)) 16, Token.make ";" none 18,
   Token.make "<boolean>" (some (.int 1)) 19]

theorem tokenize_gives_back_of_mixed :
    tokenize .returns mixedText = .ok mixedTokens ∧
    ∃ xs : List Lexeme,
      (xs.map Lexeme.text).flatten = mixedText.toList ∧
      (∀ x ∈ xs, x.text ≠ []) ∧
      (∀ before x after, xs = before ++ x :: after →
        x.position = (before.map fun y => y.text.length).sum) ∧
      List.Forall₂ (Lexeme.GivesBack .returns) (xs.filter fun x => !Lexeme.isGap x.text)
        mixedTokens ∧
      ∃ positions : List Nat, positions.Pairwise (· < ·) ∧
        mixedTokens.map (fun t => t.field "position") = positions.map fun p => .ok (.int p) := by
  have htokens : tokenize .returns mixedText = .ok mixedTokens := rfl
  exact ⟨htokens, tokenize_gives_back rfl htokens⟩

end Stepwise
