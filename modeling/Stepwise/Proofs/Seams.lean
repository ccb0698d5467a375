import Mathlib.Data.List.DropRight
import Stepwise.Proofs.Lexing

/-!
# Texts one behind the other

A text is cut in two at a seam: what stands before the seam is cut as it is without the rest, and
so is what stands behind it. From `blocks` on the tokens of two texts with white space and
comments between them are those of the one and those of the other (`tokenize_append`).

- `Lexeme.moved`, `Token.moved`: a lexeme or a token behind more characters. Where a text stands
  matters for nothing but the positions (`scanFrom_moved`);
- `scanFrom_gap`: white space and comments are passed over;
- `Lexeme.Finished`: a comment at the head of the text has its line end there. A lexeme before a
  seam stays what it is if another text follows, unless a comment is not finished (`classify_seam`);
- `Cuts.scanFrom_seam`: cutting a text with a seam in it.
-/

namespace Stepwise

namespace Lexeme

/-! ## Places -/

/-- The lexeme behind so many characters more. -/
def moved (distance : Nat) (x : Lexeme) : Lexeme :=
  { x with position := x.position + distance }

/-- **Where a text stands matters only for the positions.** -/
theorem scanFrom_moved (st : Stage) (distance : Nat) (cs : List Char) (position pending : Nat) :
    scanFrom st (position + distance) pending cs =
      (scanFrom st position pending cs).map (List.map (moved distance)) := by
  induction cs generalizing position pending with
  | nil => rfl
  | cons c rest ih =>
    cases pending with
    | succ k =>
      rw [scanFrom, scanFrom, Nat.add_right_comm, ih]
    | zero =>
      rw [scanFrom, scanFrom, Nat.add_right_comm]
      cases classify st (c :: rest) with
      | none => rfl
      | some found =>
        obtain ⟨kind, n⟩ := found
        simp only [ih]
        cases scanFrom st (position + 1) (n - 1) rest with
        | error e => rfl
        | ok later => cases st.skips kind <;> rfl

end Lexeme

/-- The token behind so many characters more. -/
def Token.moved (distance : Nat) : Token → Token
  | .record fields =>
    match Fields.get? "position" fields with
    | some (.int position) => .record (Fields.set "position" (.int (position + distance)) fields)
    | _ => .record fields
  | other => other

theorem Token.moved_make (distance : Nat) (tag : String) (value : Option Value) (position : Nat) :
    (make tag value position).moved distance = make tag value (position + distance) := by
  cases value with
  | none => rfl
  | some v => rfl

namespace Lexeme

/-- A moved lexeme makes the moved token. -/
theorem token_moved (st : Stage) (distance : Nat) (x : Lexeme) :
    token st (x.moved distance) = (token st x).map (Token.moved distance) := by
  obtain ⟨kind, text, position⟩ := x
  -- the position is a field of its own, and no other field depends on it
  have hmake : ∀ tag value,
      (.ok (Token.make tag value (position + distance)) : Except Fault Token) =
      (Except.ok (Token.make tag value position)).map (Token.moved distance) := fun tag value =>
    congrArg Except.ok (Token.moved_make distance tag value position).symm
  cases kind with
  | number =>
    cases hvalue : numeral text with
    | error e =>
      simp only [token, moved, hvalue]
      rfl
    | ok v =>
      simp only [token, moved, hvalue]
      exact hmake _ _
  | string | boolean | name | comment | blank => exact hmake _ _
  | word spelling =>
    by_cases hnull : spelling = "null"
    · subst hnull
      exact hmake _ _
    · simp only [token, moved]
      exact hmake _ _

theorem mapM_token_moved (st : Stage) (distance : Nat) (xs : List Lexeme) :
    (xs.map (moved distance)).mapM (token st) =
      (xs.mapM (token st)).map (List.map (Token.moved distance)) := by
  induction xs with
  | nil => rfl
  | cons x xs ih =>
    rw [List.map_cons, List.mapM_cons, List.mapM_cons, token_moved, ih]
    cases token st x with
    | error e => rfl
    | ok t => cases xs.mapM (token st) <;> rfl

/-- The tokens of characters in front of which stand `position` others. -/
def tokensAt (st : Stage) (position : Nat) (cs : List Char) : Except Fault (List Token) := do
  (← scanFrom st position 0 cs).mapM (token st)

/-- The tokens of a text further behind are those of the text, moved. -/
theorem tokensAt_moved (st : Stage) (distance position : Nat) (cs : List Char) :
    tokensAt st (position + distance) cs =
      (tokensAt st position cs).map (List.map (Token.moved distance)) := by
  rw [tokensAt, tokensAt, scanFrom_moved]
  cases scanFrom st position 0 cs with
  | error e => rfl
  | ok xs => exact mapM_token_moved st distance xs

/-- The token of the first lexeme stands before those of the rest. -/
theorem tokensAt_cut {st : Stage} {kind : LexClass} {text rest : List Char} {position : Nat}
    {t : Token} (h : classify st (text ++ rest) = some (kind, text.length))
    (hkept : st.skips kind = false) (ht : token st ⟨kind, text, position⟩ = .ok t) :
    tokensAt st position (text ++ rest) =
      (tokensAt st (position + text.length) rest).map (t :: ·) := by
  rw [tokensAt, tokensAt, scanFrom_cut h]
  cases scanFrom st (position + text.length) 0 rest with
  | error e => rfl
  | ok later =>
    simp only [hkept, Bool.false_eq_true, if_false]
    show (⟨kind, text, position⟩ :: later).mapM (token st) = (later.mapM (token st)).map (t :: ·)
    rw [List.mapM_cons, ht]
    cases later.mapM (token st) <;> rfl

theorem tokensAt_eq_moved (st : Stage) (distance : Nat) (code : String) :
    tokensAt st distance code.toList =
      (tokenize st code).map (List.map (Token.moved distance)) := by
  rw [← Nat.zero_add distance, tokensAt_moved, Nat.zero_add]
  rfl

/-- As `tokensAt_cut`, for whole texts: what is behind the first lexeme is cut by itself. -/
theorem tokenize_cut {st : Stage} {kind : LexClass} {text rest : String} {t : Token}
    (h : classify st (text.toList ++ rest.toList) = some (kind, text.toList.length))
    (hkept : st.skips kind = false) (ht : token st ⟨kind, text.toList, 0⟩ = .ok t) :
    tokenize st (text ++ rest) =
      (tokenize st rest).map fun more => t :: more.map (Token.moved text.length) := by
  show tokensAt st 0 (text ++ rest).toList = _
  rw [String.toList_append, tokensAt_cut h hkept ht, Nat.zero_add, String.length_toList,
    tokensAt_eq_moved]
  cases tokenize st rest <;> rfl

/-! ## Gaps -/

/-- White space at the head of a text is found there, all of it. Only comments are tried before. -/
theorem classify_blank (st : Stage) {cs : List Char} (h : cs.takeWhile Text.isBlank ≠ []) :
    classify st cs = some (.blank, (cs.takeWhile Text.isBlank).length) := by
  obtain _ | ⟨c, cs⟩ := cs
  · exact absurd rfl h
  · have hc : Text.isBlank c = true := by
      by_contra hc
      exact h (by simp [hc])
    have hcomment : (LexClass.comment).reach (c :: cs) = 0 := by
      have hslash : c ≠ '/' := by
        rintro rfl
        exact absurd hc (by decide)
      simp [LexClass.reach, commentReach, hslash]
    have hblank : (LexClass.blank).reach (c :: cs) =
        ((c :: cs).takeWhile Text.isBlank).length := rfl
    have hne : ((c :: cs).takeWhile Text.isBlank).length ≠ 0 := fun hzero =>
      h (List.eq_nil_of_length_eq_zero hzero)
    simp [classify, Stage.classes, hcomment, hblank, hne]

/-- White space at the head of a text is passed over, all of it at once. -/
theorem scanFrom_dropWhile (st : Stage) (cs : List Char) (position : Nat) :
    scanFrom st position 0 cs =
      scanFrom st (position + (cs.takeWhile Text.isBlank).length) 0
        (cs.dropWhile Text.isBlank) := by
  have hsplit : cs.takeWhile Text.isBlank ++ cs.dropWhile Text.isBlank = cs :=
    List.takeWhile_append_dropWhile
  by_cases h : cs.takeWhile Text.isBlank = []
  · rw [h, List.nil_append] at hsplit
    rw [h, hsplit]
    rfl
  · have hclass : classify st (cs.takeWhile Text.isBlank ++ cs.dropWhile Text.isBlank) =
        some (.blank, (cs.takeWhile Text.isBlank).length) := by
      rw [hsplit]
      exact classify_blank st h
    have hcut := scanFrom_cut hclass position
    have hskips : st.skips .blank = true := rfl
    simp only [hskips, if_true, bind_pure] at hcut
    rwa [hsplit] at hcut

/-- The white space may be cut anywhere. -/
theorem scanFrom_blank (st : Stage) {blanks : List Char} (h : ∀ c ∈ blanks, Text.isBlank c = true)
    (rest : List Char) (position : Nat) :
    scanFrom st position 0 (blanks ++ rest) =
      scanFrom st (position + blanks.length) 0 rest := by
  rw [scanFrom_dropWhile, scanFrom_dropWhile st rest, List.takeWhile_append_of_pos h,
    List.dropWhile_append_of_pos h, List.length_append, Nat.add_assoc]

/-- A comment is found wherever one stands, as comments are tried first. -/
theorem classify_comment (st : Stage) {text : List Char} (h : (LexClass.comment).Form text)
    (rest : List Char) : classify st (text ++ rest) = some (.comment, text.length) := by
  have hreach : (LexClass.comment).reach (text ++ rest) = text.length := commentReach_of_form h rest
  have hne : text.length ≠ 0 := by
    obtain ⟨body, rfl, -⟩ := h
    simp
  simp [classify, Stage.classes, hreach, hne]

/-- **White space and comments make no tokens.** -/
theorem scanFrom_gap {st : Stage} (hst : st.has .blocks = true) {gap : List Char}
    (h : isGap gap = true) (rest : List Char) (position : Nat) :
    scanFrom st position 0 (gap ++ rest) = scanFrom st (position + gap.length) 0 rest := by
  rw [isGap, Bool.or_eq_true] at h
  rcases h with h | h
  · exact scanFrom_blank st (isBlankRun_iff.1 h).2 rest position
  · have hskips : st.skips .comment = true := hst
    rw [scanFrom_cut (classify_comment st (isComment_iff.1 h) rest)]
    simp only [hskips, if_true, bind_pure]

theorem tokensAt_gap {st : Stage} (hst : st.has .blocks = true) {gap : List Char}
    (h : isGap gap = true) (rest : List Char) (position : Nat) :
    tokensAt st position (gap ++ rest) = tokensAt st (position + gap.length) rest := by
  rw [tokensAt, tokensAt, scanFrom_gap hst h]

/-- White space and comments in a row are passed over. -/
theorem scanFrom_gaps {st : Stage} (hst : st.has .blocks = true) {gaps : List (List Char)}
    (h : ∀ gap ∈ gaps, isGap gap = true) (rest : List Char) (position : Nat) :
    scanFrom st position 0 (gaps.flatten ++ rest) =
      scanFrom st (position + gaps.flatten.length) 0 rest := by
  induction gaps generalizing position with
  | nil => rfl
  | cons gap gaps ih =>
    simp only [List.mem_cons, forall_eq_or_imp] at h
    rw [List.flatten_cons, List.append_assoc, scanFrom_gap hst h.1, ih h.2, List.length_append,
      Nat.add_assoc]

/-! ## Seams -/

/-- If a comment starts at the head of the text, its line end is in the text as well. -/
def Finished (cs : List Char) : Prop :=
  ['/', '/'] <+: cs → '\n' ∈ cs

/-- A finished comment ends where it does, if a seam follows. -/
theorem commentReach_finished {cs : List Char} (hcs : cs ≠ []) (h : Finished cs)
    {rest : List Char} (hrest : Halted rest) : commentReach (cs ++ rest) = commentReach cs := by
  match cs, hcs with
  | [c], _ =>
    -- a slash at the seam is not doubled by what follows
    cases rest with
    | nil => rfl
    | cons d rest =>
      have hd : d ≠ '/' := by
        rintro rfl
        exact absurd (hrest '/' rfl) (by decide)
      simp [commentReach, hd]
  | c :: d :: more, _ =>
    by_cases hslashes : c = '/' ∧ d = '/'
    · obtain ⟨rfl, rfl⟩ := hslashes
      have hmem : '\n' ∈ more := by simpa using h ⟨more, rfl⟩
      have hlength : (more.takeWhile (· != '\n')).length < more.length := by
        refine Nat.lt_of_le_of_ne (List.takeWhile_prefix _).length_le fun heq => ?_
        have hall := List.takeWhile_eq_self_iff.1 ((List.takeWhile_prefix _).eq_of_length heq)
        simpa using hall '\n' hmem
      have htake : (more ++ rest).takeWhile (· != '\n') = more.takeWhile (· != '\n') := by
        rw [List.takeWhile_append, if_neg (Nat.ne_of_lt hlength)]
      have hlength' : (more.takeWhile (· != '\n')).length < (more ++ rest).length := by
        rw [List.length_append]
        omega
      simp only [List.cons_append, commentReach, htake, hlength, hlength', if_true]
    · have hzero : ∀ tail, commentReach (c :: d :: tail) = 0 := by
        intro tail
        unfold commentReach
        split
        · rename_i heq
          cases heq
          exact absurd ⟨rfl, rfl⟩ hslashes
        · rfl
      rw [List.cons_append, List.cons_append, hzero, hzero]

/-- A comment that is finished before a seam does not depend on what follows. -/
theorem commentReach_seam {cs tail tail' : List Char} (h : Finished cs) (htail : Halted tail)
    (htail' : Halted tail') : commentReach (cs ++ tail') = commentReach (cs ++ tail) := by
  by_cases hcs : cs = []
  · have hzero : ∀ tail, Halted tail → commentReach tail = 0 := by
      intro tail htail
      cases tail with
      | nil => rfl
      | cons c tail =>
        have hc : c ≠ '/' := by
          rintro rfl
          exact absurd (htail '/' rfl) (by decide)
        simp [commentReach, hc]
    rw [hcs, List.nil_append, List.nil_append, hzero _ htail, hzero _ htail']
  · rw [commentReach_finished hcs h htail, commentReach_finished hcs h htail']

/-- With a quote only quoted texts start. -/
theorem classify_quote {st : Stage} {cs : List Char} {kind : LexClass} {n : Nat}
    (h : classify st ('"' :: cs) = some (kind, n)) : kind = .string := by
  obtain ⟨hmem, rfl, hne⟩ := classify_sound h
  cases kind with
  | string => rfl
  | comment => exact absurd rfl hne
  | blank =>
    have hquote : Text.isBlank '"' = false := by decide
    simp [LexClass.reach, hquote] at hne
  | number =>
    have hquote : Text.isDigit '"' = false := by decide
    simp [LexClass.reach, numberReach, hquote] at hne
  | boolean => exact absurd rfl hne
  | name => exact absurd rfl hne
  | word spelling =>
    -- no spelling starts with a quote
    have hall : ∀ spelling ∈ Stage.keywords ++ st.operators,
        (spelling.toList.head?.any (· != '"')) = true := by
      cases st <;> decide
    obtain ⟨a, ha, hquote⟩ := Option.any_eq_true _ _ |>.1 (hall spelling (word_mem hmem))
    obtain ⟨as, has⟩ := List.head?_eq_some_iff.1 ha
    rw [bne_iff_ne] at hquote
    exact absurd (wordReach_eq_zero (by simp [has, List.isPrefixOf_cons_cons, hquote])) hne

/-- A quote and one more behind it are a pair, if the text is closed later. -/
theorem stringRest_pair (value : List Char) {rest : List Char} {n : Nat}
    (h : stringRest rest = some n) :
    stringRest (doubled value ++ '"' :: '"' :: rest) = some ((doubled value).length + (n + 2)) := by
  induction value with
  | nil =>
    show stringRest ('"' :: '"' :: rest) = _
    rw [stringRest, h]
    simp [doubled]
  | cons c value ih =>
    by_cases hc : c = '"'
    · subst hc
      rw [doubled_cons_quote, List.cons_append, List.cons_append, stringRest, ih]
      simp only [List.length_cons, Option.some.injEq]
      omega
    · rw [doubled_cons hc, List.cons_append, stringRest, ih]
      · simp only [Option.map_some, List.length_cons, Option.some.injEq]
        omega
      · rintro more rfl
        exact absurd rfl hc
      · rintro rfl
        exact hc rfl

/-- Every character that is left starts a lexeme or belongs to one. -/
theorem Cuts.classify_ne_none {st : Stage} {c : Char} {cs : List Char} {position : Nat}
    {xs : List Lexeme} (h : Cuts st position (c :: cs) xs) :
    ∃ kind n, classify st (c :: cs) = some (kind, n) := by
  generalize hcs : c :: cs = ds at h
  cases h with
  | nil => cases hcs
  | cons hclass _ => exact ⟨_, _, hclass⟩

/-- No quote stands behind a quoted text: it would be doubled, or start a text that is not
closed. -/
theorem Cuts.head_ne_quote {st : Stage} {text rest : List Char} {position : Nat}
    {xs : List Lexeme} (h : classify st (text ++ rest) = some (.string, text.length))
    (hrest : Cuts st position rest xs) : rest.head? ≠ some '"' := by
  intro hquote
  obtain ⟨more, rfl⟩ := List.head?_eq_some_iff.1 hquote
  obtain ⟨value, rfl⟩ := form_of_classify h
  obtain ⟨-, hreach, -⟩ := classify_sound h
  have hmore : stringReach ('"' :: more) ≠ 0 := by
    obtain ⟨kind, n, hclass⟩ := hrest.classify_ne_none
    obtain rfl := classify_quote hclass
    obtain ⟨-, rfl, hne⟩ := classify_sound hclass
    exact hne
  cases hclosed : stringRest more with
  | none => simp [stringReach, hclosed] at hmore
  | some n =>
    simp [LexClass.reach, stringReach, stringRest_pair value hclosed] at hreach

/-- **What stands before a seam is classified whatever follows.** -/
theorem classify_seam {st : Stage} {kind : LexClass} {text mid tail tail' : List Char}
    (h : classify st (text ++ (mid ++ tail)) = some (kind, text.length)) (hblank : kind ≠ .blank)
    (hstring : kind = .string → (mid ++ tail).head? ≠ some '"')
    (hcomment : commentReach (text ++ mid ++ tail') = commentReach (text ++ mid ++ tail))
    (htail : Halted tail) (htail' : Halted tail') :
    classify st (text ++ (mid ++ tail')) = some (kind, text.length) := by
  have hne := ne_nil_of_classify h
  by_cases hkind : kind = .string
  -- a quoted text ends with its quote, unless another one follows at once
  · subst hkind
    obtain ⟨value, rfl⟩ := form_of_classify h
    refine classify_string st value fun hquote => ?_
    cases mid with
    | nil =>
      have hhalt := htail' _ hquote
      exact absurd hhalt (by decide)
    | cons c mid => exact hstring rfl hquote
  · have hcs : text ++ mid ≠ [] := by simp [hne]
    obtain ⟨c, text, rfl⟩ := List.exists_cons_of_ne_nil hne
    -- any other lexeme starts with neither white space nor a quote, which leaves classes that stop
    -- at a seam
    have hc : Text.isBlank c = false := by
      by_contra hc
      have hrun : (c :: text ++ (mid ++ tail)).takeWhile Text.isBlank ≠ [] := by simp [hc]
      have hfound := (classify_blank st hrun).symm.trans h
      exact hblank (congrArg Prod.fst (Option.some.inj hfound)).symm
    have hquote : c ≠ '"' := by
      rintro rfl
      exact hkind (classify_quote h)
    rw [← h, ← List.append_assoc, ← List.append_assoc]
    refine classify_congr fun other hother => ?_
    cases other with
    | comment => exact hcomment
    | blank => simp [LexClass.reach, hc]
    | string => simp [LexClass.reach, stringReach, hquote]
    | number | boolean | word | name =>
      exact (reach_halted hother (by simp) (by simp) (by simp) hcs htail').trans
        (reach_halted hother (by simp) (by simp) (by simp) hcs htail).symm

/-- **A text with a seam is cut in two parts**: the lexemes before the seam are those that they are
if `tail` follows, and the rest is cut by itself. -/
theorem Cuts.scanFrom_seam {st : Stage} {tail tail' : List Char} (htail : Halted tail)
    (htail' : Halted tail') {ys zs : List Lexeme} {position : Nat}
    (h : Cuts st position ((ys.map text).flatten ++ tail) (ys ++ zs))
    (hcomments : ∀ xs, xs <:+ ys → commentReach ((xs.map text).flatten ++ tail') =
      commentReach ((xs.map text).flatten ++ tail)) :
    scanFrom st position 0 ((ys.map text).flatten ++ tail') = (do
      let later ← scanFrom st (position + (ys.map text).flatten.length) 0 tail'
      return ys.filter (kept st) ++ later) := by
  induction ys generalizing position with
  | nil => exact (bind_pure _).symm
  | cons y ys ih =>
    rw [List.map_cons, List.flatten_cons, List.append_assoc] at h
    generalize hcs : y.text ++ ((ys.map text).flatten ++ tail) = cs at h
    cases h with
    | @cons _ kind here rest _ hclass hrest =>
      obtain rfl := List.append_cancel_left hcs
      -- by hypothesis the lexemes behind this one are cut as before
      have hlater := ih hrest fun xs hxs => hcomments xs (hxs.trans (List.suffix_cons _ _))
      rw [List.map_cons, List.flatten_cons, List.append_assoc, List.length_append, ← Nat.add_assoc]
      by_cases hblank : kind = .blank
      · subst hblank
        rw [scanFrom_blank st (form_of_classify hclass).2, hlater,
          List.filter_cons_of_neg (by simp [kept, Stage.skips])]
      · have hhere := classify_seam hclass hblank (fun hkind => by
            subst hkind
            exact hrest.head_ne_quote hclass)
          (by simpa using hcomments _ (List.suffix_refl _)) htail htail'
        rw [scanFrom_cut hhere, hlater]
        cases scanFrom st (position + here.length + (ys.map text).flatten.length) 0 tail' with
        | error e => rfl
        | ok later => cases hskips : st.skips kind <;> simp [kept, hskips]

/-- Tokens come from a cut. -/
theorem exists_cuts_of_tokensAt {st : Stage} {position : Nat} {cs : List Char} {ts : List Token}
    (h : tokensAt st position cs = .ok ts) :
    ∃ xs, Cuts st position cs xs ∧ (xs.filter (kept st)).mapM (token st) = .ok ts := by
  cases hscan : scanFrom st position 0 cs with
  | error e =>
    rw [tokensAt, hscan] at h
    cases h
  | ok ys =>
    rw [tokensAt, hscan] at h
    obtain ⟨xs, hxs, rfl⟩ := scanFrom_eq_ok_iff.1 hscan
    exact ⟨xs, hxs, h⟩

/-- As `scanFrom_seam`, for tokens. -/
theorem Cuts.tokensAt_tails {st : Stage} {tail tail' : List Char} (htail : Halted tail)
    (htail' : Halted tail') {ys zs : List Lexeme} {position : Nat}
    (h : Cuts st position ((ys.map text).flatten ++ tail) (ys ++ zs))
    (hcomments : ∀ xs, xs <:+ ys → commentReach ((xs.map text).flatten ++ tail') =
      commentReach ((xs.map text).flatten ++ tail)) {ts : List Token}
    (hts : (ys.filter (kept st)).mapM (token st) = .ok ts) :
    tokensAt st position ((ys.map text).flatten ++ tail') =
      (tokensAt st (position + (ys.map text).flatten.length) tail').map (ts ++ ·) := by
  rw [tokensAt, tokensAt, h.scanFrom_seam htail htail' hcomments]
  cases scanFrom st (position + (ys.map text).flatten.length) 0 tail' with
  | error e => rfl
  | ok later =>
    show (ys.filter (kept st) ++ later).mapM (token st) = (later.mapM (token st)).map (ts ++ ·)
    rw [List.mapM_append, hts]
    cases later.mapM (token st) with
    | error e => rfl
    | ok more => rfl

/-- If all comments before the seam are finished, it does not matter what follows. -/
theorem Cuts.tokensAt_seam {st : Stage} {tail tail' : List Char} (htail : Halted tail)
    (htail' : Halted tail') {ys zs : List Lexeme} {position : Nat}
    (h : Cuts st position ((ys.map text).flatten ++ tail) (ys ++ zs))
    (hfinished : ∀ xs, xs <:+ ys → Finished (xs.map text).flatten) {ts : List Token}
    (hts : (ys.filter (kept st)).mapM (token st) = .ok ts) :
    tokensAt st position ((ys.map text).flatten ++ tail') =
      (tokensAt st (position + (ys.map text).flatten.length) tail').map (ts ++ ·) :=
  h.tokensAt_tails htail htail'
    (fun xs hxs => commentReach_seam (hfinished xs hxs) htail htail') hts

/-- If the last line of a text holds no comment, no comment is left open in the text. -/
theorem finished_of_suffix {cs : List Char} (h : ¬ ['/', '/'] <:+: cs.rtakeWhile (· != '\n'))
    {s : List Char} (hs : s <:+ cs) : Finished s := by
  intro hslashes
  by_contra hnewline
  -- without a line end in it, the rest of the text belongs to the last line
  have hall : ∀ c ∈ s.reverse, (c != '\n') = true := by
    intro c hc
    rw [bne_iff_ne]
    rintro rfl
    exact hnewline (List.mem_reverse.1 hc)
  obtain ⟨before, rfl⟩ := hs
  have hlast : s <:+ (before ++ s).rtakeWhile (· != '\n') := by
    rw [List.rtakeWhile, List.reverse_append, List.takeWhile_append_of_pos hall,
      List.reverse_append, List.reverse_reverse]
    exact List.suffix_append _ _
  exact h (hslashes.isInfix.trans hlast.isInfix)

end Lexeme

/-- **Texts with a gap between them have their tokens one after the other.** From `blocks` on let
`a` be a text that can be cut into tokens and has no `//` in its last line, and let `w` start with
white space and be made of white space and of comments with their line ends. Whatever `b` is, the
tokens of `a`, `w` and `b` together are those of `a` and behind them those of `b`, each as many
characters further on as `a` and `w` have. They fail where `b` fails, and with its fault. -/
theorem tokenize_append {st : Stage} (hst : st.has .blocks = true) {a w : String}
    {ts : List Token} (ha : tokenize st a = .ok ts)
    (hline : ¬ ['/', '/'] <:+: a.toList.rtakeWhile (· != '\n'))
    (hblank : ∃ c ∈ w.toList.head?, Text.isBlank c = true)
    (hgaps : ∃ gaps : List (List Char),
      gaps.flatten = w.toList ∧ ∀ gap ∈ gaps, Lexeme.isGap gap = true) (b : String) :
    tokenize st (a ++ w ++ b) =
      (tokenize st b).map fun more => ts ++ more.map (Token.moved (a.length + w.length)) := by
  obtain ⟨gaps, hflatten, hgaps⟩ := hgaps
  obtain ⟨xs, hcuts, hts⟩ := Lexeme.exists_cuts_of_tokensAt ha
  have htext := hcuts.flatten_text
  -- the seam is the end of `a`, where nothing or `w` follows
  have hseam : Lexeme.Halted (w.toList ++ b.toList) := by
    obtain ⟨c, hc, hcblank⟩ := hblank
    obtain ⟨more, hmore⟩ := List.head?_eq_some_iff.1 hc
    rw [hmore]
    exact Lexeme.halted_cons (by simp [Lexeme.isHalt, hcblank]) _
  have hfinished : ∀ ys, ys <:+ xs → Lexeme.Finished (ys.map Lexeme.text).flatten := by
    rintro ys ⟨before, rfl⟩
    refine Lexeme.finished_of_suffix hline ⟨(before.map Lexeme.text).flatten, ?_⟩
    rw [← htext, List.map_append, List.flatten_append]
  have hends : Lexeme.Cuts st 0 ((xs.map Lexeme.text).flatten ++ []) (xs ++ []) := by
    simpa [htext] using hcuts
  have hwhole := hends.tokensAt_seam (by rintro c ⟨⟩) hseam hfinished hts
  rw [htext, Nat.zero_add] at hwhole
  have hgap : Lexeme.tokensAt st a.toList.length (w.toList ++ b.toList) =
      Lexeme.tokensAt st (0 + (a.length + w.length)) b.toList := by
    rw [Lexeme.tokensAt, ← hflatten, Lexeme.scanFrom_gaps hst hgaps, hflatten, Nat.zero_add,
      String.length_toList, String.length_toList]
    rfl
  have hcode : (a ++ w ++ b).toList = a.toList ++ (w.toList ++ b.toList) := by simp
  show Lexeme.tokensAt st 0 (a ++ w ++ b).toList = (Lexeme.tokensAt st 0 b.toList).map _
  rw [hcode, hwhole, hgap, Lexeme.tokensAt_moved]
  cases Lexeme.tokensAt st 0 b.toList with
  | error e => rfl
  | ok more => rfl

/-- A text with a quote and two slashes in a quoted text, and a quoted text behind a comment that
holds a quote: no quote of the one closes the other. -/
theorem tokenize_append_of_quotes :
    tokenize .returns "s=\"//\n\"\"\"" = .ok [Token.make "<identifier>" (some (.text "s")) 0,
      Token.make "=" none 1, Token.make "<string>" (some (.text "//\n\"")) 2] ∧
    ¬ ['/', '/'] <:+: "s=\"//\n\"\"\"".toList.rtakeWhile (· != '\n') ∧
    (∃ c ∈ "\t//\"\n".toList.head?, Text.isBlank c = true) ∧
    (∃ gaps : List (List Char),
      gaps.flatten = "\t//\"\n".toList ∧ ∀ gap ∈ gaps, Lexeme.isGap gap = true) ∧
    tokenize .returns ("s=\"//\n\"\"\"" ++ "\t//\"\n" ++ "\"t\"") =
      (tokenize .returns "\"t\"").map fun more =>
        [Token.make "<identifier>" (some (.text "s")) 0, Token.make "=" none 1,
          Token.make "<string>" (some (.text "//\n\"")) 2] ++ more.map (Token.moved 14) := by
  have ha : tokenize .returns "s=\"//\n\"\"\"" =
      .ok [Token.make "<identifier>" (some (.text "s")) 0, Token.make "=" none 1,
        Token.make "<string>" (some (.text "//\n\"")) 2] := by rfl
  have hline : ¬ ['/', '/'] <:+: "s=\"//\n\"\"\"".toList.rtakeWhile (· != '\n') := by
    have hlast : "s=\"//\n\"\"\"".toList.rtakeWhile (· != '\n') = ['"', '"', '"'] := by rfl
    rw [hlast]
    intro hslashes
    exact absurd (hslashes.subset (List.mem_cons_self ..)) (by decide)
  have hblank : ∃ c ∈ "\t//\"\n".toList.head?, Text.isBlank c = true := ⟨'\t', rfl, by decide⟩
  have hgaps : ∃ gaps : List (List Char),
      gaps.flatten = "\t//\"\n".toList ∧ ∀ gap ∈ gaps, Lexeme.isGap gap = true :=
    ⟨[['\t'], ['/', '/', '"', '\n']], rfl, by simp; decide⟩
  exact ⟨ha, hline, hblank, hgaps, tokenize_append rfl ha hline hblank hgaps "\"t\""⟩

end Stepwise
