import Stepwise.Proofs.Remainders
import Stepwise.Proofs.Seams

/-!
# Lexemes by themselves

A lexeme that rules look for is a word, made of letters, digits, underscores and points, or it is
a symbol. It is the same lexeme without what follows it in a text (`classify_alone`), and with
something else behind it, unless that goes on with it: a word with another word, a symbol with a
character that makes a longer one.

- `Lexeme.isWordy`: the characters of words;
- `classify_ended`: what follows does not matter if no longer spelling starts there;
- `Lexeme.doubling`: the symbols that a character makes longer;
- `Lexeme.Looks`: the characters of a token that rules look for.
-/

namespace Stepwise

open Token (Is)

namespace Lexeme

/-! ## What a lexeme goes on with -/

/-- A letter, a digit, an underscore or a point. -/
def isWordy (c : Char) : Bool :=
  isNamePart c || Text.isDigit c || c == '.'

theorem isHalt_of_isWordy {c : Char} (h : isWordy c = true) : isHalt c = false := by
  by_contra hhalt
  rw [Bool.not_eq_false] at hhalt
  have hpoint : c ≠ '.' := by
    rintro rfl
    exact absurd hhalt (by decide)
  simp [isWordy, isNamePart_of_isHalt hhalt, isDigit_of_isHalt hhalt, hpoint] at h

/-- The spellings of keywords, operators and truth values. -/
def spellings (st : Stage) : List String :=
  "true" :: "false" :: (Stage.keywords ++ st.operators)

/-- The operators, but for the point, which belongs to numbers as well. -/
def symbols (st : Stage) : List String :=
  st.operators.erase "."

/-- A spelling is a word, or it starts as no word does. -/
theorem spelling_wordy (st : Stage) : ∀ s ∈ spellings st,
    (∀ c ∈ s.toList, isWordy c = true) ∨ ∀ c ∈ s.toList.head?, isWordy c = false := by
  have hall : ∀ s ∈ spellings st,
      (s.toList.all isWordy || s.toList.head?.all fun c => !isWordy c) = true := by
    cases st <;> decide
  intro s hs
  rcases Bool.or_eq_true_iff.1 (hall s hs) with hwordy | hhead
  · exact .inl (List.all_eq_true.1 hwordy)
  · exact .inr fun c hc => by simpa using Option.all_eq_true _ _ |>.1 hhead c hc

/-- A plain beginning is plain with whatever follows, unless a slash makes a comment of it. -/
theorem isPlain_ended {cs rest : List Char} (h : isPlain cs = true)
    (hslash : cs = ['/'] → rest.head? ≠ some '/') : isPlain (cs ++ rest) = true := by
  obtain _ | ⟨c, _ | ⟨d, cs⟩⟩ := cs
  · cases h
  · simp only [isPlain, Bool.and_eq_true] at h
    by_cases hc : c = '/'
    · simp [isPlain, h.1, hslash (by rw [hc])]
    · simp [isPlain, h.1, hc]
  · exact h

/-- **A lexeme is what it is by itself**, if no spelling goes on with the next character, no word
is made longer by it, and no comment starts there. -/
theorem classify_ended {st : Stage} {cs rest : List Char} (hplain : isPlain cs = true)
    (hspelling : ∀ c ∈ rest.head?, ∀ s ∈ spellings st, ¬ cs ++ [c] <+: s.toList)
    (hwordy : (∀ c ∈ rest.head?, isWordy c = false) ∨ ∀ c ∈ cs.head?, isWordy c = false)
    (hslash : cs = ['/'] → rest.head? ≠ some '/') :
    classify st (cs ++ rest) = classify st cs := by
  have hlong := isPlain_ended hplain hslash
  have hcs : cs ≠ [] := by
    rintro rfl
    cases hplain
  have hword : ∀ s ∈ spellings st, wordReach s (cs ++ rest) = wordReach s cs :=
    fun s hs => wordReach_ended fun c hc => hspelling c hc s hs
  refine classify_congr fun kind hkind => ?_
  cases kind with
  | comment => exact (commentReach_of_plain hlong).trans (commentReach_of_plain hplain).symm
  | blank =>
    simp [LexClass.reach, takeWhile_isBlank_of_plain hplain, takeWhile_isBlank_of_plain hlong]
  | string => exact (stringReach_of_plain hlong).trans (stringReach_of_plain hplain).symm
  | boolean =>
    simp only [LexClass.reach, hword "true" (by simp [spellings]),
      hword "false" (by simp [spellings])]
  | word s => exact hword s (List.mem_cons_of_mem _ (List.mem_cons_of_mem _ (word_mem hkind)))
  | number =>
    rcases hwordy with hrest | hhead
    · refine numberReach_ended cs (fun c hc => ?_) fun hpoint => ?_
      · have hc := hrest c hc
        simp only [isWordy, Bool.or_eq_false_iff] at hc
        exact hc.1.2
      · exact absurd (hrest '.' hpoint) (by decide)
    · -- a symbol is no number, whatever follows
      obtain ⟨c, cs, rfl⟩ := List.exists_cons_of_ne_nil hcs
      have hc := hhead c rfl
      simp only [isWordy, Bool.or_eq_false_iff, beq_eq_false_iff_ne] at hc
      simp [LexClass.reach, numberReach, hc.1.2, hc.2]
  | name =>
    rcases hwordy with hrest | hhead
    · refine nameReach_ended hcs fun c hc => ?_
      have hc := hrest c hc
      simp only [isWordy, Bool.or_eq_false_iff] at hc
      exact hc.1.1
    · obtain ⟨c, cs, rfl⟩ := List.exists_cons_of_ne_nil hcs
      have hc := hhead c rfl
      simp only [isWordy, isNamePart, Char.isAlphanum, Bool.or_eq_false_iff] at hc
      simp [LexClass.reach, nameReach, isNameStart, hc.1.1.1.1, hc.1.1.2]

/-- The symbols that are the beginning of a longer one, or of a comment, and the character that
makes them longer. -/
def doubling : List (String × Char) :=
  [("-", '-'), ("=", '='), ("!", '='), ("<", '='), (">", '='), ("/", '/')]

/-- A spelling that goes on where a symbol ends is one of the pairs listed. -/
theorem spelling_of_symbol {st : Stage} {op s : String} (hop : op ∈ symbols st)
    (hs : s ∈ spellings st) {c : Char} (h : op.toList ++ [c] <+: s.toList) :
    (op, c) ∈ doubling := by
  have hall : ∀ op ∈ symbols st, ∀ s ∈ spellings st, op.toList.isPrefixOf s.toList = true →
      s = op ∨ ∃ d ∈ doubling, d.1 = op ∧ s.toList = op.toList ++ [d.2] := by
    cases st <;> decide
  have hprefix := List.isPrefixOf_iff_prefix.2 ((List.prefix_append _ _).trans h)
  rcases hall op hop s hs hprefix with rfl | ⟨d, hd, rfl, hlist⟩
  · exact absurd h.length_le (by simp)
  · rw [hlist] at h
    have hlists := h.eq_of_length (by simp)
    obtain rfl : c = d.2 := by simpa using hlists
    exact hd

theorem isPlain_symbol {st : Stage} : ∀ op ∈ symbols st, isPlain op.toList = true := by
  cases st <;> decide

/-- A symbol is the same lexeme before everything that makes no longer one of it. -/
theorem classify_symbol {st : Stage} {op : String} (hop : op ∈ symbols st) {rest : List Char}
    (hrest : ∀ c ∈ rest.head?, (op, c) ∉ doubling) :
    classify st (op.toList ++ rest) = classify st op.toList := by
  have hall : ∀ op ∈ symbols st,
      (op.toList.head?.all fun c => !isWordy c) = true ∧ (op.toList = ['/'] → op = "/") := by
    cases st <;> decide
  obtain ⟨hhead, hslash⟩ := hall op hop
  refine classify_ended (isPlain_symbol op hop) (fun c hc s hs hlonger => ?_)
    (.inr fun c hc => ?_) ?_
  · exact hrest c hc (spelling_of_symbol hop hs hlonger)
  · simpa using Option.all_eq_true _ _ |>.1 hhead c hc
  · intro hop' hnext
    exact hrest '/' hnext (by rw [hslash hop']; decide)

theorem ne_of_isWordy {c d : Char} (hd : isWordy d = true) (hc : isWordy c = false) : d ≠ c := by
  rintro rfl
  rw [hd] at hc
  cases hc

/-- Words start neither comments nor texts nor white space. -/
theorem isPlain_wordy {cs : List Char} (hne : cs ≠ []) (hcs : ∀ c ∈ cs, isWordy c = true) :
    isPlain cs = true := by
  obtain ⟨d, cs, rfl⟩ := List.exists_cons_of_ne_nil hne
  have hd := hcs d (by simp)
  have hblank : Text.isBlank d = false := by
    have hhalt := isHalt_of_isWordy hd
    simp only [isHalt, Bool.or_eq_false_iff] at hhalt
    exact hhalt.1.1
  have hquote : d ≠ '"' := ne_of_isWordy hd (by decide)
  have hslash : d ≠ '/' := ne_of_isWordy hd (by decide)
  simp [isPlain, hblank, hquote, hslash]

/-- A word is the same lexeme before everything that is not wordy. -/
theorem classify_wordy {st : Stage} {cs rest : List Char} (hne : cs ≠ [])
    (hcs : ∀ c ∈ cs, isWordy c = true) (hrest : ∀ c ∈ rest.head?, isWordy c = false) :
    classify st (cs ++ rest) = classify st cs := by
  refine classify_ended (isPlain_wordy hne hcs) (fun c hc s hs => ?_) (.inl hrest) fun hslash => ?_
  · -- the spelling would be a word with a character in it that is in no word
    rintro ⟨more, hs'⟩
    obtain ⟨d, cs, rfl⟩ := List.exists_cons_of_ne_nil hne
    rcases spelling_wordy st s hs with hwordy | hhead
    · exact ne_of_isWordy (hwordy c (by simp [← hs'])) (hrest c hc) rfl
    · exact ne_of_isWordy (hcs d (by simp)) (hhead d (by simp [← hs'])) rfl
  · exact absurd (hcs '/' (by simp [hslash])) (by decide)

/-! ## The characters of tokens -/

/-- The tag of the tokens that lexemes of a class make. -/
def tagOf (st : Stage) : LexClass → String
  | .number => st.numberTag
  | .string => st.stringTag
  | .boolean => st.booleanTag
  | .name => st.nameTag
  | .word spelling => spelling
  | .comment | .blank => "comment"

/-- The tag of a token is that of its class. -/
theorem is_tagOf {st : Stage} {x : Lexeme} {t : Token} (h : token st x = .ok t) :
    Is (tagOf st x.kind) t := by
  obtain ⟨kind, text, position⟩ := x
  -- every token is made by the same function, with its tag
  have hmake : ∀ (tag : String) (value : Option Value), Is tag (Token.make tag value position) :=
    fun tag value => (Token.fields_make tag value position).1
  cases kind with
  | number =>
    cases hvalue : numeral text with
    | error e =>
      simp only [token, hvalue] at h
      cases h
    | ok v =>
      simp only [token, hvalue] at h
      cases h
      exact hmake _ _
  | string | boolean | name | comment | blank =>
    cases h
    exact hmake _ _
  | word spelling =>
    by_cases hnull : spelling = "null"
    · subst hnull
      cases h
      exact hmake _ _
    · simp only [token] at h
      cases h
      exact hmake _ _

/-- The classes of lexemes that rules look for. -/
def isLooked : LexClass → Bool
  | .number | .boolean | .word _ | .name => true
  | .comment | .blank | .string => false

/-- The characters are a word, or they are the tag itself, which is a symbol. -/
inductive Looks (st : Stage) (tag : String) (cs : List Char) : Prop
  | wordy (hne : cs ≠ []) (h : ∀ c ∈ cs, isWordy c = true)
  | symbol (h : cs = tag.toList) (htag : tag ∈ symbols st)

theorem wordy_of_digits {cs : List Char} (h : ∀ c ∈ cs, Text.isDigit c = true) :
    ∀ c ∈ cs, isWordy c = true := by
  intro c hc
  simp [isWordy, h c hc]

/-- A number is made of digits and at most one point. -/
theorem wordy_of_number {cs : List Char} (h : (LexClass.number).Form cs) :
    ∀ c ∈ cs, isWordy c = true := by
  rcases h with ⟨whole, fraction, rfl, -, hdigits⟩ | ⟨-, hdigits⟩
  · have hwordy := wordy_of_digits hdigits
    intro c hc
    rcases List.mem_append.1 hc with hc | hc
    · exact hwordy c (by simp [hc])
    · rcases List.mem_cons.1 hc with rfl | hc
      · decide
      · exact hwordy c (by simp [hc])
  · exact wordy_of_digits hdigits

/-- A name is made of letters, digits and underscores. -/
theorem wordy_of_name {cs : List Char} (h : isName cs = true) : ∀ c ∈ cs, isWordy c = true := by
  cases cs with
  | nil => cases h
  | cons d cs =>
    simp only [isName, Bool.and_eq_true, List.all_eq_true] at h
    intro c hc
    rcases List.mem_cons.1 hc with rfl | hc
    · have hstart := h.1
      simp only [isNameStart, Bool.or_eq_true] at hstart
      rcases hstart with hletter | hunderscore
      · simp [isWordy, isNamePart, Char.isAlphanum, hletter]
      · simp [isWordy, isNamePart, hunderscore]
    · simp [isWordy, h.2 c hc]

/-- Numbers and names are cut off before every character that is in no word. -/
theorem classify_spelled {st : Stage} {kind : LexClass} {cs rest : List Char}
    (h : Spelled st kind cs) (hkind : kind = .number ∨ kind = .name)
    (hrest : ∀ c ∈ rest.head?, isWordy c = false) :
    classify st (cs ++ rest) = some (kind, cs.length) := by
  have hclass : classify st (cs ++ []) = some (kind, cs.length) := by
    rw [List.append_nil]
    exact h.classify
  have hform := form_of_classify hclass
  have hwordy : ∀ c ∈ cs, isWordy c = true := by
    rcases hkind with rfl | rfl
    · exact wordy_of_number hform
    · exact wordy_of_name hform
  rw [classify_wordy (ne_nil_of_classify hclass) hwordy hrest]
  exact h.classify

/-- **What rules look for is written as a word or as a symbol.** -/
theorem looks_of_classify {st : Stage} {kind : LexClass} {cs rest : List Char}
    (h : classify st (cs ++ rest) = some (kind, cs.length))
    (htag : tagOf st kind ∈ "/" :: Rule.vocabulary st) :
    isLooked kind = true ∧ Looks st (tagOf st kind) cs := by
  -- comments, white space and texts have tags that no rule looks for
  have hother : "comment" ∉ "/" :: Rule.vocabulary st ∧
      st.stringTag ∉ "/" :: Rule.vocabulary st := by
    cases st <;> decide
  have hform := form_of_classify h
  have hne := ne_nil_of_classify h
  cases kind with
  | comment | blank => exact absurd htag hother.1
  | string => exact absurd htag hother.2
  | number => exact ⟨rfl, .wordy hne (wordy_of_number hform)⟩
  | boolean =>
    obtain ⟨b, rfl⟩ := hform
    refine ⟨rfl, .wordy hne ?_⟩
    have hall : ∀ b : Bool,
        ((if b then "true" else "false").toList.all isWordy) = true := by decide
    exact List.all_eq_true.1 (hall b)
  | name => exact ⟨rfl, .wordy hne (wordy_of_name hform)⟩
  | word spelling =>
    obtain rfl : cs = spelling.toList := hform
    refine ⟨rfl, ?_⟩
    -- a keyword is made of letters, and an operator is a symbol
    rcases List.mem_append.1 (word_mem (classify_sound h).1) with hkeyword | hoperator
    · have hall : ∀ s ∈ Stage.keywords, (s.toList.all isWordy) = true := by decide
      exact .wordy hne (List.all_eq_true.1 (hall spelling hkeyword))
    -- but for the point, which no rule looks for
    · have hpoint : "." ∉ "/" :: Rule.vocabulary st := by cases st <;> decide
      have hne' : spelling ≠ "." := by
        rintro rfl
        exact hpoint htag
      exact .symbol rfl ((List.mem_erase_of_ne hne').2 hoperator)

/-- What a phrase starts with makes no symbol longer, but a minus behind a minus. -/
theorem Looks.not_doubling {st : Stage} {tag op : String} {ds : List Char} (h : Looks st tag ds)
    (htag : tag ∈ Rule.openers st) {c : Char} (hc : c ∈ ds.head?) (hop : (op, c) ∈ doubling) :
    op = "-" ∧ ds = ['-'] := by
  cases h with
  | wordy _ hwordy =>
    have hc' := hwordy c (List.mem_of_mem_head? hc)
    have hall : ∀ d ∈ doubling, isWordy d.2 = false := by decide
    rw [hall _ hop] at hc'
    cases hc'
  | symbol hds hsymbol =>
    subst hds
    have hall : ∀ tag ∈ symbols st, tag ∈ Rule.openers st → ∀ d ∈ doubling,
        tag.toList.head? = some d.2 → d.1 = "-" ∧ tag.toList = ['-'] := by
      cases st <;> decide
    exact hall tag hsymbol htag _ hop hc

/-! ## Lexemes by themselves -/

/-- Where a number starts, it starts if more follows as well. -/
theorem numberReach_append {cs : List Char} (h : numberReach cs ≠ 0) (rest : List Char) :
    numberReach (cs ++ rest) ≠ 0 := by
  cases cs with
  | nil => exact absurd rfl h
  | cons c cs =>
    by_cases hc : Text.isDigit c = true
    · simp only [numberReach, List.cons_append, List.takeWhile_cons, hc, if_true, List.length_cons]
      split
      · rw [if_neg (by omega)]
        omega
      · omega
    · by_cases hpoint : c = '.'
      · subst hpoint
        have hpoint : Text.isDigit '.' = false := by decide
        -- without a digit before the point there is one behind it
        cases cs with
        | nil => exact absurd (show numberReach ['.'] = 0 by decide) h
        | cons d cs =>
          have hd : Text.isDigit d = true := by
            by_contra hd
            exact h (by simp [numberReach, hpoint, hd])
          simp [numberReach, hpoint, hd]
      · exact absurd (by simp [numberReach, hc, hpoint]) h

/-- Where a spelling starts, it starts if more follows as well. -/
theorem wordReach_append {spelling : String} {cs : List Char} (h : wordReach spelling cs ≠ 0)
    (rest : List Char) : wordReach spelling (cs ++ rest) ≠ 0 := by
  obtain ⟨more, rfl, hlength⟩ := word_reaches h
  have hprefix : spelling.toList.isPrefixOf (spelling.toList ++ more ++ rest) = true :=
    List.isPrefixOf_iff_prefix.2 ⟨more ++ rest, by simp⟩
  rw [wordReach, if_pos hprefix, ← String.length_toList, ← hlength]
  exact h

/-- Where such a class starts, it starts if more follows as well. -/
theorem reach_append {kind : LexClass} (hkind : isLooked kind = true) {cs : List Char}
    (h : kind.reach cs ≠ 0) (rest : List Char) : kind.reach (cs ++ rest) ≠ 0 := by
  cases kind with
  | comment | blank | string => cases hkind
  | number => exact numberReach_append h rest
  | boolean =>
    simp only [LexClass.reach] at h ⊢
    -- a truth value is one of two words, and either may be the one here
    by_cases htrue : wordReach "true" cs = 0
    · have hfalse : wordReach "false" cs ≠ 0 := fun hfalse => h (by simp [htrue, hfalse])
      have hfalse := wordReach_append hfalse rest
      omega
    · have htrue := wordReach_append htrue rest
      omega
  | word spelling => exact wordReach_append h rest
  | name =>
    cases cs with
    | nil => exact absurd rfl h
    | cons c cs =>
      have hc : isNameStart c = true := by
        by_contra hc
        exact h (by simp [LexClass.reach, nameReach, hc])
      simp [LexClass.reach, nameReach, hc]

/-- A number reaches over all of its characters. -/
theorem numberReach_of_form {cs : List Char} (h : (LexClass.number).Form cs) :
    numberReach cs = cs.length := by
  rcases h with ⟨whole, fraction, rfl, hne, hdigits⟩ | ⟨-, hdigits⟩
  · have hpoint : Text.isDigit '.' = false := by decide
    -- the digits before the point end there, and those behind it go to the end
    have hwhole : (whole ++ '.' :: fraction).takeWhile Text.isDigit = whole := by
      rw [List.takeWhile_append_of_pos fun c hc => hdigits c (by simp [hc])]
      simp [hpoint]
    have hfraction : fraction.takeWhile Text.isDigit = fraction :=
      List.takeWhile_eq_self_iff.2 fun c hc => hdigits c (by simp [hc])
    have hlength : whole.length + fraction.length ≠ 0 := by
      rw [← List.length_append]
      exact fun hzero => hne (List.eq_nil_of_length_eq_zero hzero)
    simp only [numberReach, hwhole, List.drop_left, hfraction, if_neg hlength, List.length_append,
      List.length_cons]
    omega
  · have hall : cs.takeWhile Text.isDigit = cs := List.takeWhile_eq_self_iff.2 hdigits
    simp [numberReach, hall]

/-- A lexeme that rules look for reaches over all of its characters, with nothing behind it. -/
theorem reach_of_form {kind : LexClass} (hkind : isLooked kind = true) {cs : List Char}
    (h : kind.Form cs) : kind.reach cs = cs.length := by
  cases kind with
  | comment | blank | string => cases hkind
  | number => exact numberReach_of_form h
  | boolean =>
    obtain ⟨b, rfl⟩ := h
    cases b <;> rfl
  | word spelling =>
    obtain rfl : cs = spelling.toList := h
    have hprefix : spelling.toList.isPrefixOf spelling.toList = true :=
      List.isPrefixOf_iff_prefix.2 (List.prefix_refl _)
    rw [LexClass.reach, wordReach, if_pos hprefix, String.length_toList]
  | name =>
    cases cs with
    | nil => cases h
    | cons c cs =>
      obtain ⟨hc, hcs⟩ := Bool.and_eq_true_iff.1 h
      have hall : cs.takeWhile isNamePart = cs :=
        List.takeWhile_eq_self_iff.2 (List.all_eq_true.1 hcs)
      simp [LexClass.reach, nameReach, hc, hall]

/-- **A lexeme that rules look for is one by itself.** -/
theorem classify_alone {st : Stage} {kind : LexClass} {text rest : List Char}
    (h : classify st (text ++ rest) = some (kind, text.length)) (hkind : isLooked kind = true)
    (hplain : isPlain text = true) : classify st text = some (kind, text.length) := by
  have hreach := reach_of_form hkind (form_of_classify h)
  have hne : text.length ≠ 0 := fun hzero =>
    ne_nil_of_classify h (List.eq_nil_of_length_eq_zero hzero)
  obtain ⟨before, found, after, hclasses, hfound, hbefore⟩ := List.findSome?_eq_some_iff.1 h
  obtain rfl : found = kind := by
    dsimp only at hfound
    split at hfound
    · cases hfound
    · exact (Prod.mk.inj (Option.some.inj hfound)).1
  refine List.findSome?_eq_some_iff.2 ⟨before, found, after, hclasses, ?_, fun k hk => ?_⟩
  · simp [hreach, hne]
  · -- no class before that of the lexeme starts at its characters
    have hzero : k.reach text = 0 := by
      by_contra hstarts
      have hlater := hbefore k hk
      cases k with
      | comment => exact hstarts (commentReach_of_plain hplain)
      | blank => exact hstarts (by simp [LexClass.reach, takeWhile_isBlank_of_plain hplain])
      | string => exact hstarts (stringReach_of_plain hplain)
      | number | boolean | word | name =>
        simp [reach_append rfl hstarts rest] at hlater
    simp [hzero]

end Lexeme

end Stepwise
