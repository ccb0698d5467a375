import Mathlib.Tactic.IntervalCases
import Stepwise.Proofs.Cutting
import Stepwise.Proofs.Derivation

/-!
# Texts with one space between the words

Words that are written one after the other with a space between them are cut apart at the
spaces, and each becomes a token that bears it (`tokenize_words`).

- `Lexeme.Halted rest`: `rest` is empty or starts with a character that no word, number or name
  goes on with (`reach_halted`);
- `Lexeme.Parted rest`: `rest` is empty or starts with a space. A lexeme in front of it is
  the one that it would be by itself (`classify_parted`), so that a spelling has to be
  looked at without what follows;
- `Lexeme.Spelled`: the characters are a lexeme of this class and nothing more.
  `spelled_word`, `spelled_number` and `spelled_name` are the three kinds of spellings;
- `Lexeme.CutOff`: the characters are cut off at a space, whatever they hold themselves;
- `scanFrom_joined`: cutting a text of such characters;
- `Word.Lexical`: a word that is written by its spelling.
-/

namespace Stepwise

namespace Lexeme

/-- A search that asks the same of every member finds the same. -/
theorem findSome?_congr {α β : Type} {f g : α → Option β} {l : List α}
    (h : ∀ a ∈ l, f a = g a) : l.findSome? f = l.findSome? g := by
  induction l with
  | nil => rfl
  | cons a l ih =>
    simp only [List.mem_cons, forall_eq_or_imp] at h
    simp only [List.findSome?_cons, h.1, ih h.2]

/-! ## Where lexemes end -/

/-- White space, a semicolon or a closing brace. Of the lexemes in front of such a character only
white space, a comment and a quoted text can go on with it. -/
def isHalt (c : Char) : Bool :=
  Text.isBlank c || c == ';' || c == '\x7d'

/-- The text is at its end or goes on with a character at which lexemes end. -/
def Halted (rest : List Char) : Prop :=
  ∀ c ∈ rest.head?, isHalt c = true

/-- The text is at its end or goes on with a space. -/
def Parted (rest : List Char) : Prop :=
  rest = [] ∨ ∃ more, rest = ' ' :: more

/-- A character that halts, with anything behind it. -/
theorem halted_cons {c : Char} (hc : isHalt c = true) (rest : List Char) : Halted (c :: rest) := by
  rintro d hd
  cases hd
  exact hc

/-- At the end, and at a space, everything halts. -/
theorem Parted.halted {rest : List Char} (h : Parted rest) : Halted rest := by
  rcases h with rfl | ⟨more, rfl⟩
  · rintro c ⟨⟩
  · exact halted_cons (by decide) more

/-- The characters that halt, by their code points. -/
theorem toNat_of_isHalt {c : Char} (h : isHalt c = true) :
    ∃ r ∈ (59, 59) :: (125, 125) :: Text.blankRanges, r.1 ≤ c.toNat ∧ c.toNat ≤ r.2 := by
  simp only [isHalt, Bool.or_eq_true, beq_iff_eq] at h
  rcases h with (h | rfl) | rfl
  · simp only [Text.isBlank, List.any_eq_true, Bool.and_eq_true, decide_eq_true_eq] at h
    obtain ⟨r, hr, hc⟩ := h
    exact ⟨r, by simp [hr], hc⟩
  · exact ⟨(59, 59), by simp, by decide⟩
  · exact ⟨(125, 125), by simp, by decide⟩

/-- No digit halts a numeral. -/
theorem isDigit_of_isHalt {c : Char} (h : isHalt c = true) : Text.isDigit c = false := by
  obtain ⟨r, hr, hc⟩ := toNat_of_isHalt h
  have hapart : ∀ r ∈ (59, 59) :: (125, 125) :: Text.blankRanges, ∀ z ∈ Text.zeros,
      r.2 < z ∨ z + 9 < r.1 := by decide
  simp only [Text.isDigit, Text.digit?, Option.isSome_map, List.find?_isSome, Bool.eq_false_iff,
    ne_eq, not_exists, not_and, Bool.and_eq_true, decide_eq_true_eq]
  intro z hz
  have hrange := hapart r hr z hz
  omega

theorem toNat_of_isAlpha {c : Char} (h : c.isAlpha = true) :
    (65 ≤ c.toNat ∧ c.toNat ≤ 90) ∨ (97 ≤ c.toNat ∧ c.toNat ≤ 122) := by
  rcases Bool.or_eq_true_iff.1 h with h | h
  · obtain ⟨hlow, hhigh⟩ := of_decide_eq_true h
    exact .inl ⟨UInt32.le_iff_toNat_le.1 hlow, UInt32.le_iff_toNat_le.1 hhigh⟩
  · obtain ⟨hlow, hhigh⟩ := Bool.and_eq_true_iff.1 h
    exact .inr ⟨UInt32.le_iff_toNat_le.1 (of_decide_eq_true hlow),
      UInt32.le_iff_toNat_le.1 (of_decide_eq_true hhigh)⟩

/-- Parts of names, by their code points; those between the letters do no harm. -/
theorem toNat_of_isNamePart {c : Char} (h : isNamePart c = true) :
    (48 ≤ c.toNat ∧ c.toNat ≤ 57) ∨ (65 ≤ c.toNat ∧ c.toNat ≤ 122) := by
  simp only [isNamePart, Char.isAlphanum, Char.isDigit, Bool.or_eq_true, Bool.and_eq_true,
    decide_eq_true_eq, beq_iff_eq] at h
  rcases h with (h | h) | rfl
  · have hrange := toNat_of_isAlpha h
    omega
  · exact .inl ⟨UInt32.le_iff_toNat_le.1 h.1, UInt32.le_iff_toNat_le.1 h.2⟩
  · exact .inr (by decide)

/-- No part of a name halts a name. -/
theorem isNamePart_of_isHalt {c : Char} (h : isHalt c = true) : isNamePart c = false := by
  obtain ⟨r, hr, hc⟩ := toNat_of_isHalt h
  have hapart : ∀ r ∈ (59, 59) :: (125, 125) :: Text.blankRanges,
      r.2 < 48 ∨ (57 < r.1 ∧ r.2 < 65) ∨ 122 < r.1 := by decide
  have hrange := hapart r hr
  by_contra hpart
  have hpart := toNat_of_isNamePart (Bool.eq_true_of_not_eq_false hpart)
  omega

/-- A run ends where the next character does not belong to it. -/
theorem takeWhile_ended {p : Char → Bool} (cs : List Char) {rest : List Char}
    (h : ∀ c ∈ rest.head?, p c = false) : (cs ++ rest).takeWhile p = cs.takeWhile p := by
  have hrest : rest.takeWhile p = [] := by
    cases rest with
    | nil => rfl
    | cons c rest => simp [h c rfl]
  rw [List.takeWhile_append, hrest, List.append_nil]
  split
  · rename_i hlength
    exact ((List.takeWhile_prefix p).eq_of_length hlength).symm
  · rfl

/-- The text starts with a longer spelling only if the spelling goes on with what follows. -/
theorem wordReach_ended {spelling : String} {cs rest : List Char}
    (h : ∀ c ∈ rest.head?, ¬ cs ++ [c] <+: spelling.toList) :
    wordReach spelling (cs ++ rest) = wordReach spelling cs := by
  have hprefix : spelling.toList <+: cs ++ rest ↔ spelling.toList <+: cs := by
    refine ⟨fun hlong => ?_, fun hshort => hshort.trans (List.prefix_append cs rest)⟩
    rcases List.prefix_or_prefix_of_prefix hlong (List.prefix_append cs rest) with
      hle | ⟨more, hmore⟩
    · exact hle
    · cases more with
      | nil => simp [← hmore]
      | cons c more =>
        -- the next character of the spelling is the first one behind the text
        rw [← hmore, List.prefix_append_right_inj] at hlong
        obtain ⟨tail, rfl⟩ := hlong
        exact absurd ⟨more, by simp [← hmore]⟩ (h c rfl)
  have hbool : spelling.toList.isPrefixOf (cs ++ rest) = spelling.toList.isPrefixOf cs := by
    rw [Bool.eq_iff_iff, List.isPrefixOf_iff_prefix, List.isPrefixOf_iff_prefix, hprefix]
  rw [wordReach, wordReach, hbool]

/-- Whether a word starts here is not changed by what follows, if that is something that halts. -/
theorem wordReach_halted {spelling : String}
    (hspelling : ∀ c ∈ spelling.toList.tail, isHalt c = false) {cs : List Char} (hcs : cs ≠ [])
    {rest : List Char} (h : Halted rest) :
    wordReach spelling (cs ++ rest) = wordReach spelling cs := by
  refine wordReach_ended fun c hc => ?_
  rintro ⟨more, hmore⟩
  obtain ⟨d, cs, rfl⟩ := List.exists_cons_of_ne_nil hcs
  have hhalt := hspelling c (by simp [← hmore])
  rw [h c hc] at hhalt
  cases hhalt

/-- A numeral ends where neither a digit nor a point follows. -/
theorem numberReach_ended (cs : List Char) {rest : List Char}
    (hdigit : ∀ c ∈ rest.head?, Text.isDigit c = false) (hpoint : rest.head? ≠ some '.') :
    numberReach (cs ++ rest) = numberReach cs := by
  have hdigits := takeWhile_ended cs hdigit
  have hle : (cs.takeWhile Text.isDigit).length ≤ cs.length := (List.takeWhile_prefix _).length_le
  simp only [numberReach, hdigits, List.drop_append_of_le_length hle]
  -- what follows the digits: a point, something else, or what the number ends at
  cases hdrop : cs.drop (cs.takeWhile Text.isDigit).length with
  | nil =>
    cases rest with
    | nil => rfl
    | cons c rest =>
      have hc : c ≠ '.' := by
        rintro rfl
        exact hpoint rfl
      simp [hc]
  | cons c cs' =>
    by_cases hc : c = '.'
    · subst hc
      have hfraction := takeWhile_ended cs' hdigit
      simp only [List.cons_append, hfraction]
    · simp [hc]

/-- A name ends where no part of a name follows. -/
theorem nameReach_ended {cs : List Char} (hcs : cs ≠ []) {rest : List Char}
    (h : ∀ c ∈ rest.head?, isNamePart c = false) : nameReach (cs ++ rest) = nameReach cs := by
  obtain ⟨c, cs, rfl⟩ := List.exists_cons_of_ne_nil hcs
  simp [nameReach, takeWhile_ended cs h]

/-- Only at its first character can a keyword or an operator be one of these characters. -/
theorem tail_of_word {st : Stage} {spelling : String} (h : .word spelling ∈ st.classes) :
    ∀ c ∈ spelling.toList.tail, isHalt c = false := by
  have hall : ∀ spelling ∈ Stage.keywords ++ st.operators,
      (spelling.toList.tail.all fun c => !isHalt c) = true := by
    cases st <;> decide
  intro c hc
  simpa using List.all_eq_true.1 (hall spelling (word_mem h)) c hc

/-- **Most lexemes end there.** -/
theorem reach_halted {st : Stage} {kind : LexClass} (hkind : kind ∈ st.classes)
    (hcomment : kind ≠ .comment) (hblank : kind ≠ .blank) (hstring : kind ≠ .string)
    {cs : List Char} (hcs : cs ≠ []) {rest : List Char} (h : Halted rest) :
    kind.reach (cs ++ rest) = kind.reach cs := by
  cases kind with
  | comment => exact absurd rfl hcomment
  | blank => exact absurd rfl hblank
  | string => exact absurd rfl hstring
  -- neither a digit nor a point halts
  | number =>
    refine numberReach_ended cs (fun c hc => isDigit_of_isHalt (h c hc)) fun hpoint => ?_
    exact absurd (h '.' hpoint) (by decide)
  -- truth values are two words
  | boolean =>
    have htrue : ∀ c ∈ "true".toList.tail, isHalt c = false := by simp; decide
    have hfalse : ∀ c ∈ "false".toList.tail, isHalt c = false := by simp; decide
    simp only [LexClass.reach, wordReach_halted htrue hcs h, wordReach_halted hfalse hcs h]
  | word spelling => exact wordReach_halted (tail_of_word hkind) hcs h
  | name => exact nameReach_ended hcs fun c hc => isNamePart_of_isHalt (h c hc)

/-- The class that is chosen depends on how far each one reaches. -/
theorem classify_congr {st : Stage} {cs cs' : List Char}
    (h : ∀ kind ∈ st.classes, kind.reach cs = kind.reach cs') : classify st cs = classify st cs' :=
  findSome?_congr fun kind hkind => by simp only [h kind hkind]

/-- A class is found if it starts at the text and those that are tried before it do not. -/
theorem classify_of_before {st : Stage} {before after : List LexClass} {kind : LexClass}
    {cs : List Char} {n : Nat} (hclasses : st.classes = before ++ kind :: after)
    (hbefore : ∀ k ∈ before, k.reach cs = 0) (hreach : kind.reach cs = n) (hn : n ≠ 0) :
    classify st cs = some (kind, n) := by
  refine List.findSome?_eq_some_iff.2 ⟨before, kind, after, hclasses, ?_, fun k hk => ?_⟩
  · simp [hreach, hn]
  · simp [hbefore k hk]

/-- The first quote that is not doubled closes the text. -/
theorem stringRest_closed (value : List Char) {rest : List Char} (hrest : rest.head? ≠ some '"') :
    stringRest (doubled value ++ '"' :: rest) = some ((doubled value).length + 1) := by
  induction value with
  | nil =>
    show stringRest ('"' :: rest) = some 1
    rw [stringRest]
    rintro more rfl
    exact hrest rfl
  -- a quote comes as two, and any other character as itself
  | cons c value ih =>
    by_cases hc : c = '"'
    · subst hc
      rw [doubled_cons_quote, List.cons_append, List.cons_append, stringRest, ih]
      rfl
    · rw [doubled_cons hc, List.cons_append, stringRest, ih]
      · rfl
      · rintro more rfl
        exact absurd rfl hc
      · rintro rfl
        exact hc rfl

/-- **A quoted text ends at a quote with no other behind it.** -/
theorem classify_string (st : Stage) (value : List Char) {rest : List Char}
    (hrest : rest.head? ≠ some '"') :
    classify st ('"' :: (doubled value ++ ['"']) ++ rest) =
      some (.string, ('"' :: (doubled value ++ ['"'])).length) := by
  rw [List.cons_append, List.append_assoc]
  show classify st ('"' :: (doubled value ++ '"' :: rest)) = _
  -- the classes before that of texts reach over nothing
  have hcomment : (LexClass.comment).reach ('"' :: (doubled value ++ '"' :: rest)) = 0 := rfl
  have hblank : (LexClass.blank).reach ('"' :: (doubled value ++ '"' :: rest)) = 0 := by
    have hquote : Text.isBlank '"' = false := by decide
    simp [LexClass.reach, hquote]
  have hnumber : (LexClass.number).reach ('"' :: (doubled value ++ '"' :: rest)) = 0 := by
    have hquote : Text.isDigit '"' = false := by decide
    simp [LexClass.reach, numberReach, hquote]
  have hstring : (LexClass.string).reach ('"' :: (doubled value ++ '"' :: rest)) =
      (doubled value).length + 2 := by
    simp [LexClass.reach, stringReach, stringRest_closed value hrest]
  simp [classify, Stage.classes, hcomment, hblank, hnumber, hstring]

/-- The text starts neither with a space, nor as a comment or a quoted text does. -/
def isPlain : List Char → Bool
  | [] => false
  | c :: cs => !Text.isBlank c && c != '"' && (c != '/' || cs.head? != some '/')

/-- No comment starts here, -/
theorem commentReach_of_plain {cs : List Char} (h : isPlain cs = true) : commentReach cs = 0 := by
  unfold commentReach
  split
  · simp [isPlain] at h
  · rfl

/-- nor a quoted text, -/
theorem stringReach_of_plain {cs : List Char} (h : isPlain cs = true) : stringReach cs = 0 := by
  unfold stringReach
  split
  · simp [isPlain] at h
  · rfl

/-- nor a blank. -/
theorem takeWhile_isBlank_of_plain {cs : List Char} (h : isPlain cs = true) :
    cs.takeWhile Text.isBlank = [] := by
  cases cs with
  | nil => rfl
  | cons c cs =>
    simp only [isPlain, Bool.and_eq_true, Bool.not_eq_true'] at h
    simp [h.1.1]

/-- Plain characters stay plain if a space follows. -/
theorem isPlain_append {cs rest : List Char} (h : isPlain cs = true) (hrest : Parted rest) :
    isPlain (cs ++ rest) = true := by
  match cs, hrest with
  | [], _ => cases h
  | c :: d :: cs, _ => exact h
  | [c], .inl hnil => rwa [hnil, List.append_nil]
  | [c], .inr ⟨more, hmore⟩ =>
    subst hmore
    simp only [isPlain, Bool.and_eq_true] at h
    simp [isPlain, h.1]

/-- **A space behind a text does not change how its head is classified.** -/
theorem classify_parted (st : Stage) {cs rest : List Char} (h : isPlain cs = true)
    (hrest : Parted rest) :
    classify st (cs ++ rest) = classify st cs := by
  have hplain := isPlain_append h hrest
  have hcs : cs ≠ [] := by
    rintro rfl
    cases h
  refine classify_congr fun kind hkind => ?_
  cases kind with
  | comment => exact (commentReach_of_plain hplain).trans (commentReach_of_plain h).symm
  | blank =>
    simp [LexClass.reach, takeWhile_isBlank_of_plain h, takeWhile_isBlank_of_plain hplain]
  | string => exact (stringReach_of_plain hplain).trans (stringReach_of_plain h).symm
  | number | boolean | word | name =>
    exact reach_halted hkind (by simp) (by simp) (by simp) hcs hrest.halted

/-! ## Spellings -/

/-- The characters are a lexeme of this class, which makes a token. -/
structure Spelled (st : Stage) (kind : LexClass) (cs : List Char) : Prop where
  plain : isPlain cs = true
  kept : st.skips kind = false
  classify : classify st cs = some (kind, cs.length)

/-- The operators and keywords of the last stage. -/
theorem spelled_word {tag : String} (h : tag ∈ Stage.keywords ++ Stage.operators .returns) :
    Spelled .returns (.word tag) tag.toList := by
  have hall : ∀ tag ∈ Stage.keywords ++ Stage.operators .returns, isPlain tag.toList = true ∧
      classify .returns tag.toList = some (.word tag, tag.toList.length) := by
    decide +kernel
  exact ⟨(hall tag h).1, rfl, (hall tag h).2⟩

/-- The ten digits. -/
theorem mem_digits_of_isDigit {c : Char} (h : c.isDigit = true) :
    c ∈ ['0', '1', '2', '3', '4', '5', '6', '7', '8', '9'] := by
  simp only [Char.isDigit, Bool.and_eq_true, decide_eq_true_eq] at h
  have hlow : 48 ≤ c.toNat := UInt32.le_iff_toNat_le.1 h.1
  have hhigh : c.toNat ≤ 57 := UInt32.le_iff_toNat_le.1 h.2
  rw [← Char.ofNat_toNat c]
  generalize c.toNat = n at hlow hhigh
  interval_cases n <;> decide

/-- The digits of decimal numerals count from the first zero. -/
theorem digit?_of_isDigit {c : Char} (h : c.isDigit = true) :
    Text.digit? c = some (c.toNat - '0'.toNat) := by
  have hall : ∀ c ∈ ['0', '1', '2', '3', '4', '5', '6', '7', '8', '9'],
      Text.digit? c = some (c.toNat - '0'.toNat) := by
    -- written out, since a decision on a quantifier over characters may try all of them
    simp only [List.forall_mem_cons, List.not_mem_nil, false_implies, implies_true, and_true]
    decide
  exact hall c (mem_digits_of_isDigit h)

/-- Digits spell a number. -/
theorem spelled_number {st : Stage} {cs : List Char} (hne : cs ≠ [])
    (h : ∀ c ∈ cs, c.isDigit = true) : Spelled st .number cs := by
  -- a digit starts nothing else
  have hplain : isPlain cs = true := by
    obtain ⟨c, cs, rfl⟩ := List.exists_cons_of_ne_nil hne
    have hall : ∀ c ∈ ['0', '1', '2', '3', '4', '5', '6', '7', '8', '9'],
        Text.isBlank c = false ∧ c ≠ '"' ∧ c ≠ '/' := by
      simp only [List.forall_mem_cons, List.not_mem_nil, false_implies, implies_true, and_true]
      decide
    have hc := hall c (mem_digits_of_isDigit (h c (by simp)))
    simp [isPlain, hc]
  have hdigits : cs.takeWhile Text.isDigit = cs := by
    have hdigit : ∀ c ∈ cs, Text.isDigit c = true := fun c hc => by
      simp [Text.isDigit, digit?_of_isDigit (h c hc)]
    exact List.takeWhile_eq_self_iff.2 hdigit
  have hreach : numberReach cs = cs.length := by simp [numberReach, hdigits]
  refine ⟨hplain, by cases st <;> rfl, ?_⟩
  simp [classify, Stage.classes, LexClass.reach, commentReach_of_plain hplain,
    takeWhile_isBlank_of_plain hplain, hreach, hne]

/-! ### Names -/

/-- Where names start, by the code points. -/
theorem toNat_of_isNameStart {c : Char} (h : isNameStart c = true) :
    c.toNat = 95 ∨ (65 ≤ c.toNat ∧ c.toNat ≤ 90) ∨ (97 ≤ c.toNat ∧ c.toNat ≤ 122) := by
  simp only [isNameStart, Bool.or_eq_true, beq_iff_eq] at h
  rcases h with h | rfl
  · exact .inr (toNat_of_isAlpha h)
  · exact .inl rfl

/-- Names do not start with a blank, -/
theorem isBlank_of_isNameStart {c : Char} (h : isNameStart c = true) : Text.isBlank c = false := by
  have hc := toNat_of_isNameStart h
  have hranges : ∀ r ∈ Text.blankRanges, r.2 ≤ 32 ∨ 133 ≤ r.1 := by decide
  simp only [Text.isBlank, List.any_eq_false, Bool.and_eq_true, decide_eq_true_eq]
  intro r hr
  have hrange := hranges r hr
  omega

/-- nor with a digit. -/
theorem isDigit_of_isNameStart {c : Char} (h : isNameStart c = true) : Text.isDigit c = false := by
  have hc := toNat_of_isNameStart h
  have hzeros : ∀ z ∈ Text.zeros, z = 48 ∨ 1632 ≤ z := by decide
  simp only [Text.isDigit, Text.digit?, Option.isSome_map, List.find?_isSome, Bool.eq_false_iff,
    ne_eq, not_exists, not_and, Bool.and_eq_true, decide_eq_true_eq]
  intro z hz
  have hzero := hzeros z hz
  omega

theorem wordReach_eq_zero {spelling : String} {cs : List Char}
    (h : spelling.toList.isPrefixOf cs = false) : wordReach spelling cs = 0 := by
  simp [wordReach, h]

/-- No operator starts like a name. -/
theorem wordReach_operator {st : Stage} {c : Char} {cs : List Char} {tag : String}
    (hc : isNameStart c = true) (htag : tag ∈ st.operators) : wordReach tag (c :: cs) = 0 := by
  have hall : ∀ tag ∈ st.operators,
      (tag.toList.head?.any fun a => !isNameStart a) = true := by cases st <;> decide
  obtain ⟨a, ha, hstart⟩ := Option.any_eq_true _ _ |>.1 (hall tag htag)
  obtain ⟨as, has⟩ := List.head?_eq_some_iff.1 ha
  have hne : a ≠ c := by
    rintro rfl
    rw [hc] at hstart
    cases hstart
  exact wordReach_eq_zero (by simp [has, List.isPrefixOf_cons_cons, hne])

theorem ne_of_isNameStart {c a : Char} (hc : isNameStart c = true) (ha : isNameStart a = false) :
    c ≠ a := by
  rintro rfl
  rw [hc] at ha
  cases ha

theorem isPlain_of_isNameStart {c : Char} (hc : isNameStart c = true) (cs : List Char) :
    isPlain (c :: cs) = true := by
  simp [isPlain, isBlank_of_isNameStart hc, ne_of_isNameStart hc (a := '"') (by decide),
    ne_of_isNameStart hc (a := '/') (by decide)]

/-- Of the classes that are tried before the words none starts like a name, but for truth
values. -/
theorem reach_of_isNameStart {c : Char} (hc : isNameStart c = true) (cs : List Char) :
    ∀ kind ∈ [LexClass.comment, .blank, .number, .string], kind.reach (c :: cs) = 0 := by
  have hplain := isPlain_of_isNameStart hc cs
  simp only [List.forall_mem_cons, List.not_mem_nil, false_implies, implies_true, and_true]
  refine ⟨commentReach_of_plain hplain, ?_, ?_, stringReach_of_plain hplain⟩
  · simp [LexClass.reach, takeWhile_isBlank_of_plain hplain]
  · simp [LexClass.reach, numberReach, isDigit_of_isNameStart hc,
      ne_of_isNameStart hc (a := '.') (by decide)]

/-- A name that is not reserved is spelled as a name. -/
theorem spelled_name {st : Stage} {cs : List Char} (hname : isName cs = true)
    (h : isUnreserved cs = true) : Spelled st .name cs := by
  obtain _ | ⟨c, cs⟩ := cs
  · cases hname
  simp only [isName, Bool.and_eq_true, List.all_eq_true] at hname
  obtain ⟨hc, hcs⟩ := hname
  simp only [isUnreserved, List.all_eq_true, Bool.not_eq_true'] at h
  have hreach : nameReach (c :: cs) = cs.length + 1 := by
    have hall : cs.takeWhile isNamePart = cs := List.takeWhile_eq_self_iff.2 hcs
    simp [nameReach, hc, hall]
  -- no class before that of names starts here
  have hbefore : ∀ kind ∈ [LexClass.comment, .blank, .number, .string, .boolean] ++
      Stage.keywords.map LexClass.word ++ st.operators.map LexClass.word,
      kind.reach (c :: cs) = 0 := by
    have hfirst := reach_of_isNameStart hc cs
    simp only [List.mem_cons, List.not_mem_nil, or_false] at hfirst
    intro kind hkind
    simp only [List.mem_append, List.mem_cons, List.not_mem_nil, or_false, List.mem_map] at hkind
    rcases hkind with ((rfl | rfl | rfl | rfl | rfl) | ⟨word, hword, rfl⟩) | ⟨tag, htag, rfl⟩
    · exact hfirst _ (by simp)
    · exact hfirst _ (by simp)
    · exact hfirst _ (by simp)
    · exact hfirst _ (by simp)
    · simp [LexClass.reach, wordReach_eq_zero (h "true" (by simp)),
        wordReach_eq_zero (h "false" (by simp))]
    · exact wordReach_eq_zero (h word (by simp [hword]))
    · exact wordReach_operator hc htag
  exact ⟨isPlain_of_isNameStart hc cs, rfl,
    classify_of_before rfl hbefore hreach (Nat.succ_ne_zero _)⟩

/-! ## Cutting -/

/-- In front of a space or the end, the characters are a lexeme of this class, which makes a
token. -/
structure CutOff (st : Stage) (kind : LexClass) (cs : List Char) : Prop where
  starts : ∃ c more, cs = c :: more ∧ Text.isBlank c = false
  kept : st.skips kind = false
  classify {rest : List Char} : Parted rest → classify st (cs ++ rest) = some (kind, cs.length)

/-- What is spelled as a lexeme is cut off at a space. -/
theorem Spelled.cutOff {st : Stage} {kind : LexClass} {cs : List Char} (h : Spelled st kind cs) :
    CutOff st kind cs where
  starts := by
    obtain _ | ⟨c, more⟩ := cs
    · cases h.plain
    · have hplain := h.plain
      simp only [isPlain, Bool.and_eq_true, Bool.not_eq_true'] at hplain
      exact ⟨c, more, rfl, hplain.1.1⟩
  kept := h.kept
  classify hrest := (classify_parted st h.plain hrest).trans h.classify

/-- A scan takes what is cut off as one lexeme. -/
theorem scanFrom_cutOff {st : Stage} {kind : LexClass} {cs rest : List Char}
    (h : CutOff st kind cs) (hrest : Parted rest) (position : Nat) :
    scanFrom st position 0 (cs ++ rest) =
      (do return ⟨kind, cs, position⟩ :: (← scanFrom st (position + cs.length) 0 rest)) := by
  have hclassify := h.classify hrest
  rw [scanFrom_cut hclassify]
  simp only [h.kept, Bool.false_eq_true, if_false]

/-- A single space makes no token. -/
theorem scanFrom_space (st : Stage) {c : Char} (hc : Text.isBlank c = false) (cs : List Char)
    (position : Nat) :
    scanFrom st position 0 (' ' :: c :: cs) = scanFrom st (position + 1) 0 (c :: cs) := by
  have hblank : (LexClass.blank).reach (' ' :: c :: cs) = 1 := by
    have hspace : Text.isBlank ' ' = true := by decide
    simp [LexClass.reach, hspace, hc]
  have hclassify : classify st ([' '] ++ c :: cs) = some (.blank, [' '].length) := by
    have hcomment : (LexClass.comment).reach (' ' :: c :: cs) = 0 := rfl
    simp [classify, Stage.classes, hcomment, hblank]
  have hskips : st.skips .blank = true := rfl
  have hcut := scanFrom_cut hclassify position
  simp only [hskips, if_true, bind_pure] at hcut
  exact hcut

/-- The lexemes of spellings with one space between them. -/
def placed : Nat → List (LexClass × List Char) → List Lexeme
  | _, [] => []
  | position, (kind, cs) :: more =>
    ⟨kind, cs, position⟩ :: placed (position + cs.length + 1) more

/-- Behind the first of several spellings stands a space, or nothing. -/
theorem intercalate_cons (cs : List Char) (css : List (List Char)) :
    ∃ rest, Parted rest ∧ [' '].intercalate (cs :: css) = cs ++ rest := by
  cases css with
  | nil => exact ⟨[], .inl rfl, by simp⟩
  | cons cs' css =>
    exact ⟨' ' :: [' '].intercalate (cs' :: css), .inr ⟨_, rfl⟩, by simp⟩

/-- **Spellings are cut apart at the spaces between them.** -/
theorem scanFrom_joined {st : Stage} {xs : List (LexClass × List Char)}
    (h : ∀ x ∈ xs, CutOff st x.1 x.2) (position : Nat) :
    scanFrom st position 0 ([' '].intercalate (xs.map Prod.snd)) = .ok (placed position xs) := by
  induction xs generalizing position with
  | nil => rfl
  | cons x xs ih =>
    simp only [List.mem_cons, forall_eq_or_imp] at h
    obtain ⟨hx, hxs⟩ := h
    -- the last spelling ends with the text; behind every other one there is a space to pass
    cases xs with
    | nil =>
      have hcut := scanFrom_cutOff hx (.inl rfl) position
      have hend : scanFrom st (position + x.2.length) 0 [] = .ok [] := rfl
      rw [List.append_nil, hend] at hcut
      simpa [placed] using hcut
    | cons y ys =>
      obtain ⟨c, more, hy, hc⟩ := (hxs y (by simp)).starts
      obtain ⟨rest, -, hjoined⟩ := intercalate_cons y.2 (ys.map Prod.snd)
      have hspace := scanFrom_space st hc (more ++ rest) (position + x.2.length)
      rw [← List.cons_append, ← hy, ← hjoined, ← List.map_cons, ih hxs] at hspace
      have hparted : Parted (' ' :: [' '].intercalate ((y :: ys).map Prod.snd)) := .inr ⟨_, rfl⟩
      have hcut := scanFrom_cutOff hx hparted position
      rw [hspace] at hcut
      simpa [placed] using hcut

/-- The decimal digits of a number write the number. -/
theorem number_toDigits (n : Nat) : Text.number (Nat.toDigits 10 n) = n := by
  have hdigits : ∀ c ∈ Nat.toDigits 10 n, c.isDigit = true :=
    fun c hc => Nat.isDigit_of_mem_toDigits (by decide) (by decide) hc
  have hfold : Text.number (Nat.toDigits 10 n) = Nat.ofDigitChars 10 (Nat.toDigits 10 n) 0 := by
    rw [Nat.ofDigitChars_eq_foldl]
    refine List.foldl_ext _ _ 0 fun m c hc => ?_
    rw [digit?_of_isDigit (hdigits c hc), Option.getD_some]
  rw [hfold, Nat.ofDigitChars_ten_toDigits]

/-- Digits of a number that is not too long are read as the number. -/
theorem numeral_toDigits {n : Nat} (h : (Nat.toDigits 10 n).length ≤ Value.digitLimit) :
    numeral (Nat.toDigits 10 n) = .ok (.int n) := by
  have hpoint : '.' ∉ Nat.toDigits 10 n := by
    intro hmem
    simpa using Nat.isDigit_of_mem_toDigits (by decide) (by decide) hmem
  simp [numeral, hpoint, Nat.not_lt.2 h, number_toDigits]

theorem spelled_toDigits (st : Stage) (n : Nat) : Spelled st .number (Nat.toDigits 10 n) :=
  spelled_number Nat.toDigits_ne_nil fun _ hc =>
    Nat.isDigit_of_mem_toDigits (by decide) (by decide) hc

end Lexeme

/-! ## Words and their spellings -/

namespace Word

/-- The class of the lexeme that the word is written as. -/
def kind : Word → LexClass
  | .sign tag => .word tag
  | .number _ => .number
  | .boolean _ => .boolean
  | .name _ | .defined _ => .name
  | .define => .word "function"

/-- How the word is written. -/
def spelling : Word → String
  | .sign tag => tag
  | .number (.int n) => toString n
  | .boolean v => if v.truthy then "true" else "false"
  | .name (.text x) | .defined (.text x) => x
  | .define => "function"
  | _ => ""

/-- The spelling of the word is a lexeme, and its token bears the word. -/
structure Lexical (w : Word) : Prop where
  spelled : Lexeme.Spelled .returns w.kind w.spelling.toList
  token : ∀ position, ∃ t, Lexeme.token .returns ⟨w.kind, w.spelling.toList, position⟩ = .ok t ∧
    Token.Bears t w

theorem lexical_sign {tag : String} (h : tag ∈ Stage.keywords ++ Stage.operators .returns) :
    (Word.sign tag).Lexical where
  spelled := Lexeme.spelled_word h
  token position := ⟨Token.make tag none position, Lexeme.token_word rfl tag _ position, rfl⟩

/-- Numbers are spelled by their digits. -/
theorem lexical_number {n : Nat} (h : (Nat.toDigits 10 n).length ≤ Value.digitLimit) :
    (Word.number (.int n)).Lexical := by
  have hspelling : (Word.number (.int n)).spelling.toList = Nat.toDigits 10 n := Nat.toList_repr
  refine ⟨?_, fun position => ⟨Token.make "<number>" (some (.int n)) position, ?_, rfl, rfl⟩⟩
  · rw [hspelling]
    exact Lexeme.spelled_toDigits .returns n
  · rw [hspelling]
    show (do
      return Token.make "<number>" (some (← Lexeme.numeral (Nat.toDigits 10 n))) position) = _
    rw [Lexeme.numeral_toDigits h]
    rfl

/-- Names are spelled as they are. -/
theorem lexical_name {x : Identifier} (h : Lexeme.isUnreserved x.text.toList = true) :
    (Word.name (.text x.text)).Lexical := by
  refine ⟨Lexeme.spelled_name x.spelled h, fun position => ?_⟩
  refine ⟨Token.make "<identifier>" (some (.text x.text)) position, ?_, rfl, rfl⟩
  have htext : String.ofList x.text.toList = x.text := String.ofList_toList
  show Except.ok (Token.make "<identifier>" (some (.text (String.ofList x.text.toList)))
    position) = _
  rw [htext]

/-- The lexemes of words make tokens that bear the words. -/
theorem tokens_of_placed {ws : List Word} (h : ∀ w ∈ ws, w.Lexical) (position : Nat) :
    ∃ ts, (Lexeme.placed position (ws.map fun w => (w.kind, w.spelling.toList))).mapM
      (Lexeme.token .returns) = .ok ts ∧ List.Forall₂ Token.Bears ts ws := by
  induction ws generalizing position with
  | nil => exact ⟨[], rfl, .nil⟩
  | cons w ws ih =>
    simp only [List.mem_cons, forall_eq_or_imp] at h
    obtain ⟨t, ht, hbears⟩ := h.1.token position
    obtain ⟨ts, hts, hrest⟩ := ih h.2 (position + w.spelling.toList.length + 1)
    refine ⟨t :: ts, ?_, .cons hbears hrest⟩
    rw [List.map_cons, Lexeme.placed, List.mapM_cons, ht, hts]
    rfl

end Word

/-- **A text with one space between its words has these words.** -/
theorem tokenize_words {ws : List Word} (h : ∀ w ∈ ws, w.Lexical) :
    ∃ ts, tokenize .returns (" ".intercalate (ws.map Word.spelling)) = .ok ts ∧
      List.Forall₂ Token.Bears ts ws := by
  obtain ⟨ts, hts, hbears⟩ := Word.tokens_of_placed h 0
  -- each word is cut off, as it is spelled
  have hspelled : ∀ x ∈ ws.map fun w => (w.kind, w.spelling.toList),
      Lexeme.CutOff .returns x.1 x.2 := by
    simp only [List.mem_map]
    rintro _ ⟨w, hw, rfl⟩
    exact (h w hw).spelled.cutOff
  have hscan := Lexeme.scanFrom_joined hspelled 0
  refine ⟨ts, ?_, hbears⟩
  rw [List.map_map] at hscan
  rw [tokenize, Lexeme.scan, String.toList_intercalate, List.map_map]
  show (Lexeme.scanFrom .returns 0 0
    ([' '].intercalate (ws.map (String.toList ∘ Word.spelling))) >>=
    fun xs => xs.mapM (Lexeme.token .returns)) = .ok ts
  rw [show String.toList ∘ Word.spelling = Prod.snd ∘ fun w => (w.kind, w.spelling.toList) from rfl,
    hscan]
  exact hts

end Stepwise
