import Stepwise.Proofs.Pieces

/-!
# How tokenizing ends

A text is scanned in rounds, and each round passes one lexeme. The scan ends behind the last
character, or before one with which no lexeme starts. Numerals are read afterwards. So a text has
tokens, or an illegal character, or a numeral with too many digits, and an illegal character comes
before all numerals, wherever it stands (`tokenize_verdict`).

- `Lexeme.StartsAs form cs`: the text starts with characters of the form. A class is found where
  characters of its form stand (`startsAs_form_iff`), and they are never none (`form_ne_nil`);
- `Lexeme.CatchAll`: what an illegal character may be. A line end is none, but white space starts
  there;
- `Lexeme.Scans`: so many rounds of a scan. What a round passes is gone (`Scans.length_le`), hence
  every scan comes to an end (`exists_scans`);
- `Verdict`: the three ways to end, with what is given (`Verdict.Given`) and the reason for it
  (`Verdict.Due`).
-/

namespace Stepwise

namespace Lexeme

/-! ## Where classes start -/

/-- Some characters at the head of the text have the form. -/
def StartsAs (form : List Char → Prop) (cs : List Char) : Prop :=
  ∃ text rest, cs = text ++ rest ∧ form text

/-- One character that is no line end. -/
def CatchAll (text : List Char) : Prop :=
  ∃ c, text = [c] ∧ c ≠ '\n'

/-- The text starts with a character, but not with characters of any class. -/
def Illegal (st : Stage) (cs : List Char) : Prop :=
  StartsAs CatchAll cs ∧ ∀ kind ∈ st.classes, ¬ StartsAs kind.Form cs

variable {st : Stage}

/-- **No lexeme is empty.** -/
theorem form_ne_nil {kind : LexClass} (hkind : kind ∈ st.classes) {text : List Char}
    (h : kind.Form text) : text ≠ [] := by
  cases kind with
  | comment =>
    obtain ⟨body, rfl, -⟩ := h
    exact List.cons_ne_nil _ _
  | blank => exact h.1
  | number =>
    rcases h with ⟨whole, fraction, rfl, -, -⟩ | ⟨hne, -⟩
    · simp
    · exact hne
  | string =>
    obtain ⟨value, rfl⟩ := h
    exact List.cons_ne_nil _ _
  | boolean =>
    obtain ⟨b, rfl⟩ := h
    cases b <;> decide
  | word spelling =>
    obtain rfl : text = spelling.toList := h
    have hall : ∀ s ∈ Stage.keywords ++ st.operators, s.toList ≠ [] := by cases st <;> decide
    exact hall spelling (word_mem hkind)
  | name =>
    rintro rfl
    cases h

/-- A quote behind doubled quotes closes a text, if no later one does. -/
theorem stringRest_isSome (value rest : List Char) :
    (stringRest (doubled value ++ '"' :: rest)).isSome = true := by
  induction value with
  | nil =>
    show (stringRest ('"' :: rest)).isSome = true
    by_cases hpair : ∃ more, rest = '"' :: more
    · obtain ⟨more, rfl⟩ := hpair
      rw [stringRest]
      cases stringRest more <;> rfl
    · rw [stringRest]
      · rfl
      · rintro more rfl
        exact hpair ⟨more, rfl⟩
  | cons c value ih =>
    by_cases hc : c = '"'
    · subst hc
      rw [doubled_cons_quote, List.cons_append, List.cons_append, stringRest]
      cases stringRest (doubled value ++ '"' :: rest) <;> rfl
    · rw [doubled_cons hc, List.cons_append, stringRest, Option.isSome_map]
      · exact ih
      · rintro more rfl
        exact absurd rfl hc
      · rintro rfl
        exact hc rfl

/-- A class reaches somewhere wherever characters of its form stand. -/
theorem reach_ne_zero_of_form {kind : LexClass} (hkind : kind ∈ st.classes) {text : List Char}
    (h : kind.Form text) (rest : List Char) : kind.reach (text ++ rest) ≠ 0 := by
  have hlength : text.length ≠ 0 := fun hzero =>
    form_ne_nil hkind h (List.eq_nil_of_length_eq_zero hzero)
  cases kind with
  | comment =>
    show commentReach (text ++ rest) ≠ 0
    rw [commentReach_of_form h]
    exact hlength
  | blank =>
    obtain ⟨c, text, rfl⟩ := List.exists_cons_of_ne_nil h.1
    have hc : Text.isBlank c = true := h.2 c (by simp)
    simp [LexClass.reach, hc]
  | string =>
    obtain ⟨value, rfl⟩ := h
    obtain ⟨n, hn⟩ := Option.isSome_iff_exists.1 (stringRest_isSome value rest)
    simp [LexClass.reach, stringReach, hn]
  | number | boolean | word | name =>
    refine reach_append rfl ?_ rest
    rw [reach_of_form rfl h]
    exact hlength

/-- A class is found just where characters of its form stand. -/
theorem startsAs_form_iff {kind : LexClass} (hkind : kind ∈ st.classes) {cs : List Char} :
    StartsAs kind.Form cs ↔ kind.reach cs ≠ 0 := by
  constructor
  · rintro ⟨text, rest, rfl, hform⟩
    exact reach_ne_zero_of_form hkind hform rest
  · intro hreach
    obtain ⟨text, rest, hcs, -, hform⟩ := form_of_reach hreach
    exact ⟨text, rest, hcs, hform⟩

/-- Nothing is found just where no class starts. -/
theorem classify_eq_none_iff {cs : List Char} :
    classify st cs = none ↔ ∀ kind ∈ st.classes, ¬ StartsAs kind.Form cs := by
  rw [classify, List.findSome?_eq_none_iff]
  refine forall₂_congr fun kind hkind => ?_
  rw [startsAs_form_iff hkind]
  simp

/-- **Something starts with every character**: a line end is white space, and all others the last
form takes. -/
theorem startsAs_some {cs : List Char} (hcs : cs ≠ []) :
    (∃ kind ∈ st.classes, StartsAs kind.Form cs) ∨ StartsAs CatchAll cs := by
  obtain ⟨c, cs, rfl⟩ := List.exists_cons_of_ne_nil hcs
  by_cases hc : c = '\n'
  · subst hc
    have hblank : Text.isBlank '\n' = true := by decide
    have hmem : LexClass.blank ∈ st.classes := by simp [Stage.classes]
    exact .inl ⟨.blank, hmem, ['\n'], cs, rfl, by simp, by simpa using hblank⟩
  · exact .inr ⟨[c], cs, rfl, c, rfl, hc⟩

/-- A character is illegal just where nothing is found. -/
theorem illegal_iff {cs : List Char} : Illegal st cs ↔ cs ≠ [] ∧ classify st cs = none := by
  rw [classify_eq_none_iff]
  constructor
  · rintro ⟨⟨_, rest, rfl, c, rfl, -⟩, hnone⟩
    exact ⟨List.cons_ne_nil _ _, hnone⟩
  · rintro ⟨hcs, hnone⟩
    rcases startsAs_some hcs with ⟨kind, hkind, hstarts⟩ | hcatch
    · exact absurd hstarts (hnone kind hkind)
    · exact ⟨hcatch, hnone⟩

/-! ## Scanning -/

/-- Some rounds of the scan of `cs`, in front of which stand `position` characters: the lexemes
that they pass, and what is left. -/
inductive Scans (st : Stage) : Nat → List Char → List Lexeme → List Char → Prop
  | here (position : Nat) (cs : List Char) : Scans st position cs [] cs
  | round {position : Nat} {kind : LexClass} {text rest left : List Char} {xs : List Lexeme} :
      classify st (text ++ rest) = some (kind, text.length) →
      Scans st (position + text.length) rest xs left →
      Scans st position (text ++ rest) (⟨kind, text, position⟩ :: xs) left

namespace Scans

variable {position : Nat} {cs left : List Char} {xs : List Lexeme}

/-- Every round passes one character at least. -/
theorem length_le (h : Scans st position cs xs left) :
    xs.length + left.length ≤ cs.length := by
  induction h with
  | here => simp
  | round hclass _ ih =>
    have hpos := List.length_pos_iff.2 (ne_nil_of_classify hclass)
    simp only [List.length_cons, List.length_append]
    omega

/-- A scan that is at the end of the text has cut it. -/
theorem cuts_iff : Scans st position cs xs [] ↔ Cuts st position cs xs := by
  constructor
  · intro h
    generalize hleft : [] = left at h
    induction h with
    | here position cs =>
      subst hleft
      exact .nil position
    | round hclass _ ih => exact .cons hclass (ih hleft)
  · intro h
    induction h with
    | nil position => exact .here position []
    | cons hclass _ ih => exact .round hclass ih

/-- What is refused after some rounds is refused from the start. -/
theorem scanFrom_error (h : Scans st position cs xs left) {e : Fault}
    (he : ∀ position, scanFrom st position 0 left = .error e) :
    scanFrom st position 0 cs = .error e := by
  induction h with
  | here => exact he _
  | round hclass _ ih =>
    rw [scanFrom_cut hclass, ih he]
    rfl

end Scans

/-- **Every scan comes to an end.** The induction is on the length of the text: each round leaves a
shorter one. -/
theorem exists_scans (position : Nat) (cs : List Char) :
    ∃ xs left, Scans st position cs xs left ∧ classify st left = none := by
  induction hk : cs.length using Nat.strong_induction_on generalizing position cs with
  | _ k ih =>
    cases hclass : classify st cs with
    | none => exact ⟨[], cs, .here position cs, hclass⟩
    | some found =>
      obtain ⟨kind, n⟩ := found
      obtain ⟨text, rest, rfl, rfl, -⟩ := exists_text_of_classify hclass
      have hpos := List.length_pos_iff.2 (ne_nil_of_classify hclass)
      rw [List.length_append] at hk
      obtain ⟨xs, left, hscan, hleft⟩ :=
        ih rest.length (by omega) (position + text.length) rest rfl
      exact ⟨_, left, .round hclass hscan, hleft⟩

/-! ## Reading numerals -/

/-- A numeral without a point that has more digits than can be read. -/
def Overlong (x : Lexeme) : Prop :=
  x.kind = .number ∧ '.' ∉ x.text ∧ Value.digitLimit < x.text.countP Text.isDigit

/-- What is no point in a number is a digit. -/
theorem countP_of_form {text : List Char} (h : (LexClass.number).Form text) (hpoint : '.' ∉ text) :
    text.countP Text.isDigit = text.length := by
  rcases h with ⟨whole, fraction, rfl, -, -⟩ | ⟨-, hdigits⟩
  · exact absurd (by simp) hpoint
  · exact List.countP_eq_length.2 hdigits

/-- A numeral with too many digits is refused. -/
theorem numeral_of_overlong {text : List Char} (h : (LexClass.number).Form text) {position : Nat}
    (hlong : Overlong ⟨.number, text, position⟩) : numeral text = .error .numeralTooLong := by
  obtain ⟨-, hpoint, hlength⟩ := hlong
  have hlength : Value.digitLimit < text.length := countP_of_form h hpoint ▸ hlength
  simp [numeral, hpoint, hlength]

/-- Any other numeral has a value. -/
theorem numeral_of_not_overlong {text : List Char} {position : Nat}
    (hshort : ¬ Overlong ⟨.number, text, position⟩) (h : (LexClass.number).Form text) :
    ∃ v, numeral text = .ok v := by
  by_cases hpoint : '.' ∈ text
  · exact ⟨.float ((Number.ofPointed text).toFloat false), by simp [numeral, hpoint]⟩
  · have hlength : ¬ Value.digitLimit < text.length := by
      rw [← countP_of_form h hpoint]
      exact fun hlong => hshort ⟨rfl, hpoint, hlong⟩
    exact ⟨.int (Text.number text), by simp [numeral, hpoint, hlength]⟩

/-- **Only a numeral with too many digits has no token.** -/
theorem token_verdict (st : Stage) {x : Lexeme} (hform : x.kind.Form x.text) :
    x.Overlong ∧ token st x = .error .numeralTooLong ∨ ¬ x.Overlong ∧ ∃ t, token st x = .ok t := by
  obtain ⟨kind, text, position⟩ := x
  by_cases hlong : Overlong ⟨kind, text, position⟩
  · left
    refine ⟨hlong, ?_⟩
    obtain rfl : kind = .number := hlong.1
    simp only [token, numeral_of_overlong hform hlong]
    rfl
  · right
    refine ⟨hlong, ?_⟩
    cases kind with
    | number =>
      obtain ⟨v, hv⟩ := numeral_of_not_overlong hlong hform
      exact ⟨_, by simp only [token, hv]; rfl⟩
    | string | boolean | name | comment | blank => exact ⟨_, rfl⟩
    | word spelling =>
      by_cases hnull : spelling = "null"
      · subst hnull
        exact ⟨_, rfl⟩
      · exact ⟨_, by simp only [token]; rfl⟩

/-- Lexemes make tokens unless one of them is a numeral with too many digits. -/
theorem tokens_verdict (st : Stage) {xs : List Lexeme} (hforms : ∀ x ∈ xs, x.kind.Form x.text) :
    (∃ x ∈ xs, x.Overlong) ∧ xs.mapM (token st) = .error .numeralTooLong ∨
      (∀ x ∈ xs, ¬ x.Overlong) ∧ ∃ ts, xs.mapM (token st) = .ok ts := by
  induction xs with
  | nil => exact .inr ⟨by simp, [], rfl⟩
  | cons x xs ih =>
    simp only [List.forall_mem_cons] at hforms
    rw [List.mapM_cons]
    rcases token_verdict st hforms.1 with ⟨hlong, htoken⟩ | ⟨hshort, t, htoken⟩
    · rw [htoken]
      exact .inl ⟨⟨x, by simp, hlong⟩, rfl⟩
    · rw [htoken]
      rcases ih hforms.2 with ⟨⟨y, hy, hlong⟩, hrest⟩ | ⟨hall, ts, hrest⟩
      · rw [hrest]
        exact .inl ⟨⟨y, by simp [hy], hlong⟩, rfl⟩
      · rw [hrest]
        exact .inr ⟨List.forall_mem_cons.2 ⟨hshort, hall⟩, t :: ts, rfl⟩

end Lexeme

open Lexeme

/-! ## Verdicts -/

/-- The ways in which tokenizing ends. -/
inductive Verdict where
  | tokens
  | illegal
  | tooLong

namespace Verdict

/-- What tokenizing gives. -/
def Given (result : Except Fault (List Token)) : Verdict → Prop
  | .tokens => ∃ ts, result = .ok ts
  | .illegal => result = .error .illegalCharacter
  | .tooLong => result = .error .numeralTooLong

/-- The reason for it. Numerals matter only if the scan is at the end of the text. -/
def Due (st : Stage) (cs : List Char) : Verdict → Prop
  | .tokens => ∃ xs, Scans st 0 cs xs [] ∧ ∀ x ∈ xs, ¬ x.Overlong
  | .illegal => ∃ xs left, Scans st 0 cs xs left ∧ Illegal st left
  | .tooLong => ∃ xs, Scans st 0 cs xs [] ∧ ∃ x ∈ xs, x.Overlong

theorem Given.unique {result : Except Fault (List Token)} {v w : Verdict} (hv : v.Given result)
    (hw : w.Given result) : v = w := by
  cases v <;> cases w <;> simp_all [Given]

variable {st : Stage}

/-- The tokens of a text that has been cut. -/
theorem tokens_of_scans {code : String} {xs : List Lexeme} (h : Scans st 0 code.toList xs []) :
    (∃ x ∈ xs, x.Overlong) ∧ tokenize st code = .error .numeralTooLong ∨
      (∀ x ∈ xs, ¬ x.Overlong) ∧ ∃ ts, tokenize st code = .ok ts := by
  have hcuts := Scans.cuts_iff.1 h
  have hforms : ∀ x ∈ xs.filter (kept st), x.kind.Form x.text := by
    intro x hx
    obtain ⟨rest, hclass⟩ := hcuts.classified (List.mem_of_mem_filter hx)
    exact form_of_classify hclass
  have htokenize : tokenize st code = (xs.filter (kept st)).mapM (token st) := by
    rw [tokenize, scan, hcuts.scanFrom_eq]
    rfl
  -- no numeral is passed over, so it is enough to look at the lexemes with a token
  have hkept : ∀ x ∈ xs, x.Overlong → x ∈ xs.filter (kept st) := by
    intro x hx hlong
    refine List.mem_filter.2 ⟨hx, ?_⟩
    rw [kept, hlong.1]
    rfl
  rw [htokenize]
  rcases tokens_verdict st hforms with ⟨⟨x, hx, hlong⟩, hresult⟩ | ⟨hall, hresult⟩
  · exact .inl ⟨⟨x, List.mem_of_mem_filter hx, hlong⟩, hresult⟩
  · exact .inr ⟨fun x hx hlong => hall x (hkept x hx hlong) hlong, hresult⟩

/-- An illegal character is reported whatever has been passed before it. -/
theorem tokenize_of_illegal {code : String} {xs : List Lexeme} {left : List Char}
    (h : Scans st 0 code.toList xs left) (hleft : Illegal st left) :
    tokenize st code = .error .illegalCharacter := by
  obtain ⟨hne, hnone⟩ := illegal_iff.1 hleft
  obtain ⟨c, left, rfl⟩ := List.exists_cons_of_ne_nil hne
  have hscan : scan st code.toList = .error .illegalCharacter := by
    refine h.scanFrom_error fun position => ?_
    rw [scanFrom, hnone]
  rw [tokenize, hscan]
  rfl

/-- **The verdict that a text is due is given.** -/
theorem Due.given {code : String} {v : Verdict} (h : v.Due st code.toList) :
    v.Given (tokenize st code) := by
  cases v with
  | tokens =>
    obtain ⟨xs, hscan, hshort⟩ := h
    rcases tokens_of_scans hscan with ⟨⟨x, hx, hlong⟩, -⟩ | ⟨-, hts⟩
    · exact absurd hlong (hshort x hx)
    · exact hts
  | illegal =>
    obtain ⟨xs, left, hscan, hleft⟩ := h
    exact tokenize_of_illegal hscan hleft
  | tooLong =>
    obtain ⟨xs, hscan, x, hx, hlong⟩ := h
    rcases tokens_of_scans hscan with ⟨-, hresult⟩ | ⟨hshort, -⟩
    · exact hresult
    · exact absurd hlong (hshort x hx)

/-- Every text is due a verdict: its scan comes to an end. -/
theorem exists_due (st : Stage) (code : String) : ∃ v : Verdict, v.Due st code.toList := by
  obtain ⟨xs, left, hscan, hnone⟩ : ∃ xs left, Scans st 0 code.toList xs left ∧
      classify st left = none := exists_scans 0 code.toList
  by_cases hleft : left = []
  · subst hleft
    rcases tokens_of_scans hscan with ⟨hlong, -⟩ | ⟨hshort, -⟩
    · exact ⟨.tooLong, xs, hscan, hlong⟩
    · exact ⟨.tokens, xs, hscan, hshort⟩
  · exact ⟨.illegal, xs, left, hscan, illegal_iff.2 ⟨hleft, hnone⟩⟩

end Verdict

/-- The two faults of tokenizing. -/
theorem tokenize_error {st : Stage} {code : String} {e : Fault} (h : tokenize st code = .error e) :
    e = .illegalCharacter ∨ e = .numeralTooLong := by
  obtain ⟨v, hdue⟩ := Verdict.exists_due st code
  have hgiven := hdue.given
  rw [h] at hgiven
  cases v with
  | tokens =>
    obtain ⟨ts, hts⟩ := hgiven
    cases hts
  | illegal => exact .inl (Except.error.inj hgiven)
  | tooLong => exact .inr (Except.error.inj hgiven)

/-- **Every text has one verdict.** At every stage tokenizing gives tokens, or the fault of an
illegal character, or that of a numeral with too many digits, and nothing else.

- There are tokens just if the scan comes to the end of the text and no numeral that it passes is
  too long. The fault of a numeral is given just if it comes to the end and some numeral is too
  long. That of an illegal character is given just if it comes to characters of which no class has
  the form, whatever it has passed before, numerals that are too long included.
- Wherever the scan is before the end, something starts: characters of a class, or else a character
  that is no line end.
- No class has the form of no characters, and a scan has at most as many rounds as it has passed
  characters. -/
theorem tokenize_verdict (st : Stage) (code : String) :
    (∃! v : Verdict, v.Given (tokenize st code)) ∧
    (∀ v : Verdict, v.Given (tokenize st code) ↔ v.Due st code.toList) ∧
    (∀ xs left, Scans st 0 code.toList xs left → xs.length + left.length ≤ code.length ∧
      (left = [] ∨ (∃ kind ∈ st.classes, StartsAs kind.Form left) ∨ StartsAs CatchAll left)) ∧
    ∀ kind ∈ st.classes, ∀ text, kind.Form text → text ≠ [] := by
  obtain ⟨v, hdue⟩ := Verdict.exists_due st code
  refine ⟨⟨v, hdue.given, fun w hw => hw.unique hdue.given⟩,
    fun w => ⟨fun hw => ?_, fun hw => hw.given⟩, fun xs left hscan => ⟨?_, ?_⟩,
    fun kind hkind text hform => form_ne_nil hkind hform⟩
  · obtain rfl := hw.unique hdue.given
    exact hdue
  · rw [← String.length_toList]
    exact hscan.length_le
  · by_cases hleft : left = []
    · exact .inl hleft
    · exact .inr (startsAs_some hleft)

/-- A numeral with one digit too many, and behind it a character with which no lexeme starts. -/
def strayText : String :=
  String.ofList (List.replicate (Value.digitLimit + 1) '7' ++ ['@'])

/-- The scan passes the numeral and stops at the character behind it, and this is reported. -/
theorem tokenize_verdict_of_stray :
    (∃ xs left, Scans .returns 0 strayText.toList xs left ∧ (∃ x ∈ xs, x.Overlong) ∧
      Illegal .returns left) ∧
    tokenize .returns strayText = .error .illegalCharacter := by
  let digits : List Char := List.replicate (Value.digitLimit + 1) '7'
  have hne : digits ≠ [] := List.cons_ne_nil _ _
  have hdigits : ∀ c ∈ digits, c.isDigit = true := by
    intro c hc
    rw [List.eq_of_mem_replicate hc]
    rfl
  have hclass : classify .returns (digits ++ ['@']) = some (.number, digits.length) := by
    refine classify_spelled (spelled_number hne hdigits) (.inl rfl) ?_
    rintro c ⟨⟩
    decide
  have hscan : Scans .returns 0 strayText.toList [⟨.number, digits, 0⟩] ['@'] := by
    rw [strayText, String.toList_ofList]
    exact .round hclass (.here _ _)
  have hpoint : '.' ∉ digits := by simp [digits]
  have hlong : Overlong ⟨.number, digits, 0⟩ := by
    refine ⟨rfl, hpoint, ?_⟩
    rw [countP_of_form (form_of_classify hclass) hpoint, List.length_replicate]
    exact Nat.lt_succ_self _
  have hstray : Illegal .returns ['@'] := illegal_iff.2 ⟨by simp, by decide⟩
  refine ⟨⟨_, _, hscan, ⟨_, by simp, hlong⟩, hstray⟩, ?_⟩
  exact ((tokenize_verdict .returns strayText).2.1 .illegal).2 ⟨_, _, hscan, hstray⟩

end Stepwise
