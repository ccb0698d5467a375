import Stepwise.Program
import Stepwise.Proofs.Syntax

/-!
# What the parser makes

Every tree of a program text is the tree of a statement that a text of the stage
can hold (`tree_fits`): the parser fills each node with just the fields that the
syntax has, and the tokens bring numbers, truth values and names into the leaves.

- `Yields P x`: what the reading `x` gives, if it gives anything, has property
  `P`; readings are followed step by step with `Yields.bind`. `Answers A P x` says
  of its faults, too, that they have a property;
- `Token.Sound`: a literal's token holds a value of the literal's kind, and
  `Token.Legible` one that a text can hold. So does every token of a text
  (`tokenize_legible`);
- `Rule.origin`: the stage that brings a rule. A rule of a stage is made of rules
  that the stage has;
- `Rule.Image`: the trees that a rule may give. One lemma for each rule shows
  that it does, if the rules inside it do (`step_image`).
-/

namespace Stepwise

/-! ## Readings -/

/-- What the computation gives, if it gives anything, has the property. -/
def Yields {α : Type} (P : α → Prop) (x : Except Fault α) : Prop :=
  ∀ a, x = .ok a → P a

namespace Yields

variable {α β : Type} {P : α → Prop}

theorem pure {a : α} (h : P a) : Yields P (pure a : Except Fault α) := by
  intro b hb
  cases hb
  exact h

theorem error (e : Fault) : Yields P (.error e : Except Fault α) := by
  intro a h
  cases h

/-- What follows may rest on the very result that came before it. -/
theorem bind {x : Except Fault β} {f : β → Except Fault α}
    (h : ∀ b, x = .ok b → Yields P (f b)) : Yields P (x >>= f) := by
  intro a ha
  cases x with
  | ok b => exact h b rfl a ha
  | error e => cases ha

/-- What follows may rest on the property of the result before it. -/
theorem andThen {Q : β → Prop} {x : Except Fault β} {f : β → Except Fault α} (hx : Yields Q x)
    (hf : ∀ b, Q b → Yields P (f b)) : Yields P (x >>= f) :=
  .bind fun b hb => hf b (hx b hb)

theorem ite {c : Prop} [Decidable c] {x y : Except Fault α} (hx : c → Yields P x)
    (hy : ¬c → Yields P y) : Yields P (if c then x else y) := by
  split
  · exact hx ‹c›
  · exact hy ‹¬c›

end Yields

/-- The computation gives something with the property `P`, or fails with a fault that has the
property `A`. -/
def Answers {α : Type} (A : Fault → Prop) (P : α → Prop) : Except Fault α → Prop
  | .ok a => P a
  | .error e => A e

namespace Answers

variable {α β : Type} {A : Fault → Prop} {P : α → Prop}

theorem pure {a : α} (h : P a) : Answers A P (pure a : Except Fault α) := h

theorem error {e : Fault} (h : A e) : Answers A P (.error e : Except Fault α) := h

/-- Faults of either part are faults of both. -/
theorem bind {Q : β → Prop} {x : Except Fault β} {f : β → Except Fault α} (hx : Answers A Q x)
    (hf : ∀ b, Q b → Answers A P (f b)) : Answers A P (x >>= f) := by
  cases x with
  | ok b => exact hf b hx
  | error e => exact hx

theorem ite {c : Prop} [Decidable c] {x y : Except Fault α} (hx : c → Answers A P x)
    (hy : ¬c → Answers A P y) : Answers A P (if c then x else y) := by
  split
  · exact hx ‹c›
  · exact hy ‹¬c›

/-- Weaker demands on faults and on results. -/
theorem imp {B : Fault → Prop} {Q : α → Prop} {x : Except Fault α} (hx : Answers A P x)
    (hfault : ∀ e, A e → B e) (h : ∀ a, P a → Q a) : Answers B Q x := by
  cases x with
  | ok a => exact h a hx
  | error e => exact hfault e hx

end Answers

/-- Only a text is a text. -/
theorem Value.eq_text_of_isText {s : String} {v : Value} (h : v.isText s = true) : v = .text s := by
  cases v with
  | text t => simpa [Value.isText] using h
  | null | bool | int | float | list | record => cases h

/-! ## Lexemes and tokens -/

namespace Lexeme

/-- The class is one of the stage's, and a name is spelled as one, with no reserved word at its
head. -/
structure WellFormed (st : Stage) (x : Lexeme) : Prop where
  kind_mem : x.kind ∈ st.classes
  isName_text : x.kind = .name → isName x.text = true
  isUnreserved_text : x.kind = .name → isUnreserved x.text = true

/-- As far as names reach there is a name. -/
theorem isName_take_nameReach {cs : List Char} (h : nameReach cs ≠ 0) :
    isName (cs.take (nameReach cs)) = true := by
  cases cs with
  | nil => exact absurd rfl h
  | cons c rest =>
    by_cases hc : isNameStart c = true
    · have htake : rest.take (rest.takeWhile isNamePart).length = rest.takeWhile isNamePart :=
        (List.prefix_iff_eq_take.1 (List.takeWhile_prefix isNamePart)).symm
      simp [nameReach, hc, isName, htake]
    · simp [nameReach, hc] at h

/-- The class that is chosen is one of the stage's, and reaches over something. -/
theorem classify_sound {st : Stage} {cs : List Char} {kind : LexClass} {n : Nat}
    (h : classify st cs = some (kind, n)) : kind ∈ st.classes ∧ n = kind.reach cs ∧ n ≠ 0 := by
  obtain ⟨k, hk, hreach⟩ := List.exists_of_findSome?_eq_some h
  by_cases hn : k.reach cs = 0
  · simp [hn] at hreach
  · simp [hn] at hreach
    obtain ⟨rfl, rfl⟩ := hreach
    exact ⟨hk, rfl, hn⟩

/-- Names are tried last: where one is found no other class starts. -/
theorem reach_of_classify_name {st : Stage} {cs : List Char} {n : Nat}
    (h : classify st cs = some (.name, n)) {kind : LexClass} (hkind : kind ∈ st.classes)
    (hne : kind ≠ .name) : kind.reach cs = 0 := by
  let before : List LexClass := [LexClass.comment, .blank, .number, .string, .boolean] ++
    Stage.keywords.map LexClass.word ++ st.operators.map LexClass.word
  let found : LexClass → Option (LexClass × Nat) := fun kind =>
    if kind.reach cs = 0 then none else some (kind, kind.reach cs)
  have hsplit : (before.findSome? found).or ([LexClass.name].findSome? found) = some (.name, n) :=
    List.findSome?_append.symm.trans h
  cases hbefore : before.findSome? found with
  | none =>
    have hmem : kind ∈ before ++ [LexClass.name] := hkind
    have hkind : kind ∈ before := by simpa [hne] using hmem
    simpa [found] using List.findSome?_eq_none_iff.1 hbefore kind hkind
  | some other =>
    -- a class before that of names would have been taken
    rw [hbefore] at hsplit
    obtain ⟨k, hk, hother⟩ := List.exists_of_findSome?_eq_some hbefore
    obtain rfl : other = (.name, n) := by simpa using hsplit
    have hname : k = .name := by
      by_cases hreach : k.reach cs = 0
      · simp [found, hreach] at hother
      · simpa [found, hreach] using congrArg (Option.map Prod.fst) hother
    simp [hname, before] at hk

/-- Characters that are taken for a name start with no reserved word: its class would have come
first. -/
theorem isUnreserved_of_classify {st : Stage} {cs : List Char} {n : Nat}
    (h : classify st cs = some (.name, n)) : isUnreserved (cs.take n) = true := by
  -- no word reaches over anything here, or its class would have been chosen
  have hapart : ∀ spelling ∈ "true" :: "false" :: Stage.keywords, wordReach spelling cs = 0 := by
    have htruth : (LexClass.boolean).reach cs = 0 :=
      reach_of_classify_name h (by simp [Stage.classes]) (by simp)
    intro spelling hspelling
    simp only [List.mem_cons] at hspelling
    obtain rfl | rfl | hkeyword := hspelling
    · exact Nat.le_zero.1 (htruth ▸ Nat.le_max_left _ _)
    · exact Nat.le_zero.1 (htruth ▸ Nat.le_max_right _ _)
    · have hmem : LexClass.word spelling ∈ st.classes := by simp [Stage.classes, hkeyword]
      exact reach_of_classify_name h hmem (by simp)
  -- and a word that starts the name would reach over its own letters
  have hne : ∀ spelling ∈ "true" :: "false" :: Stage.keywords, spelling.length ≠ 0 := by decide
  simp only [isUnreserved, List.all_eq_true, Bool.not_eq_true', ← Bool.not_eq_true,
    List.isPrefixOf_iff_prefix]
  intro spelling hspelling hheads
  have hcs : spelling.toList.isPrefixOf cs = true :=
    List.isPrefixOf_iff_prefix.2 (hheads.trans (List.take_prefix n cs))
  have hreach := hapart spelling hspelling
  simp only [wordReach, hcs, if_true] at hreach
  exact hne spelling hspelling hreach

/-- A scan gives lexemes that could stand alone, each in its class. -/
theorem scanFrom_sound (st : Stage) : ∀ (cs : List Char) (position pending : Nat),
    Yields (fun xs => ∀ x ∈ xs, WellFormed st x) (scanFrom st position pending cs)
  | [], _, _ => by
    unfold scanFrom
    exact .pure (by simp)
  | c :: rest, position, k + 1 => by
    unfold scanFrom
    exact scanFrom_sound st rest (position + 1) k
  | c :: rest, position, 0 => by
    rw [scanFrom]
    cases hclass : classify st (c :: rest) with
    | none => exact .error _
    | some found =>
      obtain ⟨kind, n⟩ := found
      refine .bind fun later hlater => ?_
      have ih := scanFrom_sound st rest (position + 1) (n - 1) later hlater
      refine .ite (fun _ => .pure ih) fun _ => .pure ?_
      intro x hx
      obtain rfl | hx := List.mem_cons.1 hx
      -- the new lexeme: only of names there is more to say
      · obtain ⟨hmem, rfl, hn⟩ := classify_sound hclass
        refine ⟨hmem, fun hname => ?_, fun hname => ?_⟩
        · have hkind : kind = .name := hname
          subst hkind
          have hreach : nameReach (c :: rest) ≠ 0 := hn
          exact isName_take_nameReach hreach
        · have hkind : kind = .name := hname
          subst hkind
          exact isUnreserved_of_classify hclass
      · exact ih x hx

end Lexeme

/-- The token of a literal holds a value of the literal's kind. -/
structure Token.Sound (st : Stage) (t : Token) : Prop where
  number : t.field "tag" = .ok (.text st.numberTag) →
    ∃ v : Numeric, t.field "value" = .ok v.value
  boolean : st.has .booleans = true → t.field "tag" = .ok (.text st.booleanTag) →
    ∃ b : Bool, t.field "value" = .ok (Value.ofTruth b)
  name : t.field "tag" = .ok (.text st.nameTag) →
    ∃ x : Identifier, t.field "value" = .ok (.text x.text)

/-- What the token of a literal holds can stand in a text: an integer is short enough, and a name
starts with no reserved word. -/
structure Token.Legible (st : Stage) (t : Token) : Prop extends Token.Sound st t where
  writable : t.field "tag" = .ok (.text st.numberTag) →
    ∀ v, t.field "value" = .ok v → v.unwritable = false
  unreserved : t.field "tag" = .ok (.text st.nameTag) →
    ∀ s, t.field "value" = .ok (.text s) → Lexeme.isUnreserved s.toList = true

namespace Token

/-- A tag that is no literal's asks nothing of its token. -/
theorem Sound.of_tag {st : Stage} {t : Token} {tag : Value} (h : t.field "tag" = .ok tag)
    (hn : tag ≠ .text st.numberTag) (hb : tag ≠ .text st.booleanTag)
    (hx : tag ≠ .text st.nameTag) : Sound st t where
  number h' := absurd (Except.ok.inj (h.symm.trans h')) hn
  boolean _ h' := absurd (Except.ok.inj (h.symm.trans h')) hb
  name h' := absurd (Except.ok.inj (h.symm.trans h')) hx

theorem Legible.of_tag {st : Stage} {t : Token} {tag : Value} (h : t.field "tag" = .ok tag)
    (hn : tag ≠ .text st.numberTag) (hb : tag ≠ .text st.booleanTag)
    (hx : tag ≠ .text st.nameTag) : Legible st t where
  toSound := .of_tag h hn hb hx
  writable h' := absurd (Except.ok.inj (h.symm.trans h')) hn
  unreserved h' := absurd (Except.ok.inj (h.symm.trans h')) hx

theorem ending_legible (st : Stage) : Legible st ending :=
  .of_tag (t := ending) rfl (by simp) (by simp) (by simp)

theorem ending_sound (st : Stage) : Sound st ending := (ending_legible st).toSound

theorem field_tag_make (tag : String) (value : Option Value) (position : Nat) :
    (make tag value position).field "tag" = .ok (.text tag) := rfl

theorem field_value_make (tag : String) (value : Value) (position : Nat) :
    (make tag (some value) position).field "value" = .ok value := rfl

theorem field_tag_make_ne {tag tag' : String} {value : Option Value} {position : Nat}
    (h : tag ≠ tag') : (make tag value position).field "tag" ≠ .ok (.text tag') :=
  fun htag => h (Value.text.inj (Except.ok.inj htag))

end Token

namespace Stage

/-- No other lexeme has the tag of a literal. -/
theorem ne_literalTag (st : Stage) : ∀ tag ∈ "null" :: "comment" :: st.stringTag ::
    (keywords ++ st.operators),
      tag ≠ st.numberTag ∧ tag ≠ st.booleanTag ∧ tag ≠ st.nameTag := by
  cases st <;> decide

/-- The tags of the three literals differ. -/
theorem literalTags_ne (st : Stage) : st.numberTag ≠ st.booleanTag ∧
    st.numberTag ≠ st.nameTag ∧ st.booleanTag ≠ st.nameTag := by
  cases st <;> decide

end Stage

/-- Of a token that is no literal's only the tag matters. -/
theorem Token.legible_make {st : Stage} {tag : String} (value : Option Value) (position : Nat)
    (htag : tag ∈ "null" :: "comment" :: st.stringTag :: (Stage.keywords ++ st.operators)) :
    Legible st (make tag value position) := by
  obtain ⟨hn, hb, hx⟩ := st.ne_literalTag tag htag
  exact .of_tag (field_tag_make tag value position) (by simpa using hn) (by simpa using hb)
    (by simpa using hx)

namespace Lexeme

/-- A numeral is a number, of one kind or the other. -/
theorem numeral_yields (cs : List Char) :
    Yields (fun v => ∃ x : Numeric, v = x.value) (numeral cs) := by
  unfold numeral
  refine .ite (fun _ => .pure ⟨.float _, rfl⟩) fun _ => .ite (fun _ => .error _) fun _ => ?_
  exact .pure ⟨.int _, rfl⟩

theorem digit?_le {c : Char} {d : Nat} (h : Text.digit? c = some d) : d ≤ 9 := by
  unfold Text.digit? at h
  obtain ⟨z, hz, rfl⟩ := Option.map_eq_some_iff.1 h
  have hrange := List.find?_some hz
  simp only [Bool.and_eq_true, decide_eq_true_eq] at hrange
  omega

/-- A run of digits writes a number of no more digits. -/
theorem number_lt (cs : List Char) : Text.number cs < Nat.pow 10 cs.length := by
  -- read from `n` on, each character multiplies by ten and adds one digit
  have hfold : ∀ (cs : List Char) (n k : Nat), n < Nat.pow 10 k →
      cs.foldl (fun n c => 10 * n + (Text.digit? c).getD 0) n < Nat.pow 10 (k + cs.length) := by
    intro cs
    induction cs with
    | nil => exact fun n k h => h
    | cons c cs ih =>
      intro n k h
      have hdigit : (Text.digit? c).getD 0 ≤ 9 := by
        cases hd : Text.digit? c with
        | none => exact Nat.zero_le 9
        | some d => exact digit?_le hd
      have hnext : 10 * n + (Text.digit? c).getD 0 < Nat.pow 10 k * 10 := by omega
      rw [List.length_cons, Nat.add_comm cs.length 1, ← Nat.add_assoc]
      exact ih _ (k + 1) hnext
  have hnumber := hfold cs 0 0 (by decide)
  rwa [Nat.zero_add] at hnumber

/-- An integer of few enough digits can be written. -/
theorem writable_int {n : Int} {digits : Nat} (hdigits : digits ≤ Value.digitLimit)
    (hn : n.natAbs < Nat.pow 10 digits) : (Value.int n).unwritable = false := by
  have hlimit : ∀ limit, digits ≤ limit → ¬ 10 ^ limit ≤ n.natAbs := by
    intro limit h
    have hpow : Nat.pow 10 digits ≤ Nat.pow 10 limit := Nat.pow_le_pow_right (by decide) h
    exact Nat.not_le.2 (Nat.lt_of_lt_of_le hn hpow)
  show decide (10 ^ Value.digitLimit ≤ n.natAbs) = false
  exact decide_eq_false (hlimit _ hdigits)

/-- A numeral that can be read can be written. -/
theorem numeral_writable (cs : List Char) :
    Yields (fun v => v.unwritable = false) (numeral cs) := by
  unfold numeral
  refine .ite (fun _ => .pure rfl) fun _ => .ite (fun _ => .error _) fun hlength => .pure ?_
  exact writable_int (Nat.not_lt.1 hlength) (number_lt cs)

/-- From `booleans` on truth values are the numbers 0 and 1. -/
theorem truthValue_eq {st : Stage} (h : st.has .booleans = true) (cs : List Char) :
    truthValue st cs = Value.ofTruth (cs == "true".toList) := by
  simp [truthValue, h, Value.ofTruth]

theorem word_mem {st : Stage} {spelling : String} (h : LexClass.word spelling ∈ st.classes) :
    spelling ∈ Stage.keywords ++ st.operators := by
  simpa [Stage.classes] using h

/-- The tokens of lexemes are legible: only those of the three literals have to say anything. -/
theorem token_legible {st : Stage} {x : Lexeme} (hx : x.WellFormed st) :
    Yields (Token.Legible st) (token st x) := by
  obtain ⟨kind, text, position⟩ := x
  obtain ⟨hnb, hnx, hbx⟩ := st.literalTags_ne
  cases kind with
  | number =>
    refine .bind fun v hv => .pure ?_
    have hwritable := numeral_writable text v hv
    obtain ⟨y, rfl⟩ := numeral_yields text v hv
    exact {
      number := fun _ => ⟨y, Token.field_value_make ..⟩
      boolean := fun _ h => absurd h (Token.field_tag_make_ne hnb)
      name := fun h => absurd h (Token.field_tag_make_ne hnx)
      writable := fun _ w hw => by
        rw [Token.field_value_make] at hw
        cases hw
        exact hwritable
      unreserved := fun h => absurd h (Token.field_tag_make_ne hnx) }
  | boolean =>
    exact .pure {
      number := fun h => absurd h (Token.field_tag_make_ne hnb.symm)
      boolean := fun hst _ => ⟨text == "true".toList, by
        rw [Token.field_value_make, truthValue_eq hst]⟩
      name := fun h => absurd h (Token.field_tag_make_ne hbx)
      writable := fun h => absurd h (Token.field_tag_make_ne hnb.symm)
      unreserved := fun h => absurd h (Token.field_tag_make_ne hbx) }
  | name =>
    have hname : isName (String.ofList text).toList = true := by
      simpa using hx.isName_text rfl
    have hfree : isUnreserved (String.ofList text).toList = true := by
      simpa using hx.isUnreserved_text rfl
    exact .pure {
      number := fun h => absurd h (Token.field_tag_make_ne hnx.symm)
      boolean := fun _ h => absurd h (Token.field_tag_make_ne hbx.symm)
      name := fun _ => ⟨⟨String.ofList text, hname⟩, rfl⟩
      writable := fun h => absurd h (Token.field_tag_make_ne hnx.symm)
      unreserved := fun _ s hs => by
        cases hs
        exact hfree }
  | string => exact .pure (Token.legible_make _ _ (by simp))
  | comment | blank => exact .pure (Token.legible_make _ _ (by simp))
  | word spelling =>
    by_cases hnull : spelling = "null"
    · subst hnull
      exact .pure (Token.legible_make _ _ (by simp))
    · have hmem : spelling ∈ Stage.keywords ++ st.operators := word_mem hx.kind_mem
      have htoken : token st ⟨.word spelling, text, position⟩ = pure (Token.make spelling
          (if st.has .blocks then none else some (.text spelling)) position) := by
        simp [token]
      rw [htoken]
      exact .pure (Token.legible_make _ _ (by simp only [List.mem_cons, hmem, or_true]))

/-- The tokens of lexemes are sound. -/
theorem token_sound {st : Stage} {x : Lexeme} (hx : x.WellFormed st) :
    Yields (Token.Sound st) (token st x) :=
  fun t ht => (token_legible hx t ht).toSound

end Lexeme

/-- A list of readings, each with the property. -/
theorem mapM_yields {α β : Type} {P : β → Prop} {f : α → Except Fault β} :
    ∀ {xs : List α}, (∀ x ∈ xs, Yields P (f x)) → Yields (fun ys => ∀ y ∈ ys, P y) (xs.mapM f)
  | [], _ => .pure (by simp)
  | x :: xs, h => by
    rw [List.mapM_cons]
    refine .bind fun y hy => .bind fun ys hys => .pure ?_
    have hfirst : P y := h x (by simp) y hy
    have hrest : ∀ z ∈ ys, P z := mapM_yields (fun z hz => h z (List.mem_cons_of_mem x hz)) ys hys
    simpa using ⟨hfirst, hrest⟩

/-- Every token of a text holds what its tag says, and what a text can hold. -/
theorem tokenize_legible (st : Stage) (code : String) :
    Yields (fun ts => ∀ t ∈ ts, Token.Legible st t) (tokenize st code) := by
  refine .bind fun xs hxs => mapM_yields fun x hx => ?_
  exact Lexeme.token_legible (Lexeme.scanFrom_sound st code.toList 0 0 xs hxs x hx)

/-- The tokens of a text are sound. -/
theorem tokenize_sound (st : Stage) (code : String) :
    Yields (fun ts => ∀ t ∈ ts, Token.Sound st t) (tokenize st code) :=
  fun ts hts t ht => (tokenize_legible st code ts hts t ht).toSound

/-! ## Rules -/

/-- Every stage has what the first one has. -/
theorem Stage.has_expressions (st : Stage) : st.has .expressions = true := by
  cases st <;> rfl

namespace Rule

open Token (headTag)

/-- The stage that brings the rule. -/
def origin : Rule → Stage
  | .expression | .sum | .product | .factor => .expressions
  | .statement | .assignment => .assignments
  | .disjunction | .conjunction | .negation | .comparison => .booleans
  | .ifStatement | .whileStatement => .conditions
  | .blockStatement => .blocks
  | .returnStatement | .printStatement | .functionStatement | .functionLiteral | .nameList
  | .expressionList => .functions
  | .callable | .simple => .returns

/-- Every token of the list is sound. -/
def SoundTokens (st : Stage) (ts : List Token) : Prop :=
  ∀ t ∈ ts, Token.Sound st t

/-- Every token of the list is legible. -/
def LegibleTokens (st : Stage) (ts : List Token) : Prop :=
  ∀ t ∈ ts, Token.Legible st t

/-- The tree is that of an expression of the stage. -/
def IsExpression (st : Stage) (t : Tree) : Prop :=
  ∃ e : Expression, e.Fits st ∧ t = e.tree st

/-- The tree is that of a name that programs can use. -/
def IsName (st : Stage) (t : Tree) : Prop :=
  ∃ x : Identifier, Lexeme.isUnreserved x.text.toList = true ∧ t = x.tree st

/-- The trees that a rule may give. -/
def Image (st : Stage) : Rule → Tree → Prop
  | .blockStatement => fun t =>
    ∃ ss, Statement.AllFit st ss ∧ t = Tree.block (Statement.trees st ss)
  | .nameList => fun t => ∃ xs : List Identifier,
    (∀ x ∈ xs, Lexeme.isUnreserved x.text.toList = true) ∧ t = Identifier.listTree st xs
  | .expressionList => fun t => ∃ es, Expression.AllFit st es ∧ t = Expression.listTree st es
  | .statement | .ifStatement | .whileStatement | .returnStatement | .printStatement
  | .functionStatement | .assignment => fun t => ∃ s : Statement, s.Fits st ∧ t = s.tree st
  | .expression | .disjunction | .conjunction | .negation | .comparison | .sum | .product
  | .factor | .callable | .simple | .functionLiteral => IsExpression st

/-- The reading gives something with the property, and legible tokens behind it. -/
def Reads {α : Type} (st : Stage) (P : α → Prop) (x : Except Fault (α × List Token)) : Prop :=
  Yields (fun p => P p.1 ∧ LegibleTokens st p.2) x

variable {st : Stage} {rule : Rule → List Token → Reading} {ts : List Token}

theorem Reads.andThen {α β : Type} {P : α → Prop} {Q : β → Prop}
    {x : Except Fault (α × List Token)} {f : α × List Token → Except Fault β} (hx : Reads st P x)
    (hf : ∀ a rest, P a → LegibleTokens st rest → Yields Q (f (a, rest))) : Yields Q (x >>= f) :=
  .bind fun (a, rest) h => hf a rest (hx (a, rest) h).1 (hx (a, rest) h).2

theorem Reads.imp {α : Type} {P Q : α → Prop} {x : Except Fault (α × List Token)}
    (hx : Reads st P x) (hPQ : ∀ a, P a → Q a) : Reads st Q x :=
  fun p hp => ⟨hPQ p.1 (hx p hp).1, (hx p hp).2⟩

/-! ### Single tokens -/

theorem LegibleTokens.tail {t : Token} (h : LegibleTokens st (t :: ts)) : LegibleTokens st ts :=
  fun u hu => h u (List.mem_cons_of_mem t hu)

theorem LegibleTokens.drop (h : LegibleTokens st ts) (n : Nat) : LegibleTokens st (ts.drop n) :=
  fun t ht => h t (List.mem_of_mem_drop ht)

theorem skip_legible (h : LegibleTokens st ts) (tag : String) :
    Yields (LegibleTokens st) (skip tag ts) :=
  .bind fun _ _ => .ite (fun _ => .pure (h.drop 1)) fun _ => .error _

theorem demand_legible (h : LegibleTokens st ts) (tag what : String) :
    Yields (LegibleTokens st) (demand tag what ts) :=
  .bind fun _ _ => .ite (fun _ => .pure (h.drop 1)) fun _ => .error _

theorem skipSemicolons_legible : ∀ {ts : List Token}, LegibleTokens st ts →
    Yields (LegibleTokens st) (skipSemicolons ts)
  | [], _ => .error _
  | _ :: _, h =>
    .bind fun _ _ => .ite (fun _ => skipSemicolons_legible h.tail) fun _ => .pure h

/-- The head's tag is known once it has been asked for. -/
theorem headTag_of_nextIs {tag : String} {b : Bool} (h : nextIs tag ts = .ok b)
    (hb : b = true) : headTag ts = .ok (.text tag) := by
  unfold nextIs at h
  cases htag : headTag ts with
  | error e => rw [htag] at h; cases h
  | ok v =>
    rw [htag] at h
    have hv : v.isText tag = true := (Except.ok.inj h).trans hb
    rw [Value.eq_text_of_isText hv]

theorem headTag_of_isText {tag : String} {v : Value} (h : headTag ts = .ok v)
    (hv : v.isText tag = true) : headTag ts = .ok (.text tag) := by
  rw [h, Value.eq_text_of_isText hv]

/-- A name token holds an identifier, and no reserved word. -/
theorem headValue_name (h : LegibleTokens st ts) (htag : headTag ts = .ok (.text st.nameTag)) :
    Yields (fun v => ∃ x : Identifier, Lexeme.isUnreserved x.text.toList = true ∧ v = .text x.text)
      (headValue ts) := by
  intro v hv
  cases ts with
  | nil => cases hv
  | cons t rest =>
    have ht := h t (by simp)
    obtain ⟨x, hx⟩ := ht.name htag
    exact ⟨x, ht.unreserved htag x.text hx, Except.ok.inj (hv.symm.trans hx)⟩

/-- A name token makes a name node. -/
theorem readLeaf_name (h : LegibleTokens st ts) (htag : headTag ts = .ok (.text st.nameTag)) :
    Reads st (IsName st) (readLeaf st st.nameTag ts) := by
  refine .bind fun v hv => .pure ⟨?_, h.drop 1⟩
  obtain ⟨x, hfree, rfl⟩ := headValue_name h htag v hv
  exact ⟨x, hfree, rfl⟩

/-- A number token makes the tree of a number. -/
theorem readLeaf_number (h : LegibleTokens st ts)
    (htag : headTag ts = .ok (.text st.numberTag)) :
    Reads st (IsExpression st) (readLeaf st st.numberTag ts) := by
  refine .bind fun v hv => .pure ⟨?_, h.drop 1⟩
  cases ts with
  | nil => cases hv
  | cons t rest =>
    have ht := h t (by simp)
    obtain ⟨x, hx⟩ := ht.number htag
    refine ⟨.number x, ht.writable htag x.value hx, ?_⟩
    rw [Except.ok.inj (hv.symm.trans hx)]
    rfl

/-- A token for a truth value makes the tree of one. -/
theorem readLeaf_boolean (h : LegibleTokens st ts) (hst : st.has .booleans = true)
    (htag : headTag ts = .ok (.text st.booleanTag)) :
    Reads st (IsExpression st) (readLeaf st st.booleanTag ts) := by
  refine .bind fun v hv => .pure ⟨?_, h.drop 1⟩
  cases ts with
  | nil => cases hv
  | cons t rest =>
    obtain ⟨b, hb⟩ := (h t (by simp)).boolean hst htag
    exact ⟨.boolean b, hst, by rw [Except.ok.inj (hv.symm.trans hb)]; rfl⟩

theorem parameter_reads (h : LegibleTokens st ts) : Reads st (IsName st) (parameter st ts) := by
  refine .bind fun b hb => .ite (fun hbt => ?_) fun _ => .error _
  exact readLeaf_name h (headTag_of_nextIs hb hbt)

/-! ### Repetition -/

section Steps

variable (h : ∀ r ts, st.has r.origin = true → LegibleTokens st ts →
  Reads st (Image st r) (rule r ts))
include h

/-- A chain of binary operators is the tree of an expression if its start is. -/
theorem leftward_reads {operand : Rule} {operators : List String}
    (horigin : st.has operand.origin = true) (himage : Image st operand = IsExpression st)
    (hsigns : ∀ tag ∈ operators, ∃ op : Operator, st.has op.origin = true ∧ op.sign = tag) :
    ∀ (budget : Nat) (left : Expression) (ts : List Token), left.Fits st → LegibleTokens st ts →
      Reads st (IsExpression st) (leftward st rule operand operators budget (left.tree st) ts)
  | 0, _, _, _, _ => .error _
  | budget + 1, left, ts, hleft, hs => by
    have hoperand := h operand (ts.drop 1) horigin (hs.drop 1)
    rw [himage] at hoperand
    refine .bind fun tag _ => ?_
    split
    · refine .ite (fun hmem => ?_) fun _ => .pure ⟨⟨left, hleft, rfl⟩, hs⟩
      obtain ⟨op, hop, rfl⟩ := hsigns _ (List.contains_iff_mem.1 hmem)
      refine hoperand.andThen fun _ rest ⟨right, hright, htree⟩ hrest => ?_
      subst htree
      exact leftward_reads horigin himage hsigns budget (.binary op left right) rest
        ⟨hop, hleft, hright⟩ hrest
    · exact .pure ⟨⟨left, hleft, rfl⟩, hs⟩

/-- So is a chain of calls, whose start is the callee. -/
theorem calls_reads (hst : st.has .functions = true) :
    ∀ (budget : Nat) (callee : Expression) (ts : List Token), callee.Fits st →
      LegibleTokens st ts → Reads st (IsExpression st) (calls st rule budget (callee.tree st) ts)
  | 0, _, _, _, _ => .error _
  | budget + 1, callee, ts, hcallee, hs => by
    refine .bind fun _ _ => .ite (fun _ => ?_) fun _ => .pure ⟨⟨callee, hcallee, rfl⟩, hs⟩
    refine (h .expressionList ts hst hs).andThen fun _ rest ⟨es, hes, htree⟩ hrest => ?_
    subst htree
    exact calls_reads hst budget (.call callee es) rest ⟨hst, hcallee, hes⟩ hrest

/-- The statements behind the first one of a block. -/
theorem moreStatements_reads (hst : st.has .assignments = true) :
    ∀ (budget : Nat) (ts : List Token), LegibleTokens st ts →
      Reads st (fun trees => ∃ ss, Statement.AllFit st ss ∧ trees = Statement.trees st ss)
        (moreStatements rule budget ts)
  | 0, _, _ => .error _
  | budget + 1, ts, hs => by
    refine .bind fun _ _ => .ite (fun _ => ?_) fun _ => .pure ⟨⟨[], trivial, rfl⟩, hs⟩
    refine (skipSemicolons_legible hs).andThen fun ts₁ hs₁ => .bind fun _ _ => ?_
    refine .ite (fun _ => moreStatements_reads hst budget ts₁ hs₁) fun _ => ?_
    refine (h .statement ts₁ hst hs₁).andThen fun _ ts₂ ⟨s, hfits, htree⟩ hs₂ => ?_
    subst htree
    refine .bind fun _ _ => .bind fun _ _ => .ite (fun _ => .error _) fun _ => ?_
    refine (moreStatements_reads hst budget ts₂ hs₂).andThen fun _ _ ⟨ss, hss, htrees⟩ hs₃ => ?_
    subst htrees
    exact .pure ⟨⟨s :: ss, ⟨hfits, hss⟩, rfl⟩, hs₃⟩

/-- The expressions behind the first one of a list. -/
theorem moreExpressions_reads : ∀ (budget : Nat) (ts : List Token), LegibleTokens st ts →
    Reads st (fun trees => ∃ es, Expression.AllFit st es ∧ trees = Expression.trees st es)
      (moreExpressions rule budget ts)
  | 0, _, _ => .error _
  | budget + 1, ts, hs => by
    refine .bind fun _ _ => .ite (fun _ => ?_) fun _ => .pure ⟨⟨[], trivial, rfl⟩, hs⟩
    refine (h .expression (ts.drop 1) st.has_expressions (hs.drop 1)).andThen
      fun _ ts₁ ⟨e, he, htree⟩ hs₁ => ?_
    refine (moreExpressions_reads budget ts₁ hs₁).andThen fun _ _ ⟨es, hes, htrees⟩ hs₂ => ?_
    subst htree htrees
    exact .pure ⟨⟨e :: es, ⟨he, hes⟩, rfl⟩, hs₂⟩

omit h in
/-- The parameters behind the first one of a list. -/
theorem moreParameters_reads : ∀ (budget : Nat) (ts : List Token), LegibleTokens st ts →
    Reads st (fun trees => ∃ xs : List Identifier,
      (∀ x ∈ xs, Lexeme.isUnreserved x.text.toList = true) ∧ trees = xs.map (Identifier.tree st))
      (moreParameters st budget ts)
  | 0, _, _ => .error _
  | budget + 1, ts, hs => by
    refine .bind fun _ _ => .ite (fun _ => ?_) fun _ => .pure ⟨⟨[], by simp, rfl⟩, hs⟩
    refine (parameter_reads (hs.drop 1)).andThen fun _ ts₁ ⟨x, hx, htree⟩ hs₁ => ?_
    refine (moreParameters_reads budget ts₁ hs₁).andThen fun _ _ ⟨xs, hxs, htrees⟩ hs₂ => ?_
    subst htree htrees
    exact .pure ⟨⟨x :: xs, by simpa using ⟨hx, hxs⟩, rfl⟩, hs₂⟩

/-! ### Expressions -/

/-- An expression in parentheses is one. -/
theorem parenthesized_reads (hs : LegibleTokens st ts) :
    Reads st (IsExpression st) (parenthesized st rule ts) := by
  have hinner : Reads st (IsExpression st)
      (rule (if st.has .booleans && !st.has .returns then comparison else expression)
        (ts.drop 1)) := by
    split
    · exact h .comparison _ (Bool.and_eq_true_iff.1 ‹_›).1 (hs.drop 1)
    · exact h .expression _ st.has_expressions (hs.drop 1)
  refine hinner.andThen fun e rest he hrest => .bind fun _ _ => ?_
  exact .ite (fun _ => .pure ⟨he, hrest.drop 1⟩) fun _ => .error _

/-- So is a negated operand. -/
theorem negated_reads {operand : Rule} (horigin : st.has operand.origin = true)
    (himage : Image st operand = IsExpression st) (hst : st.has .booleans = true)
    (hs : LegibleTokens st ts) : Reads st (IsExpression st) (negated st rule operand ts) := by
  have hoperand := h operand (ts.drop 1) horigin (hs.drop 1)
  rw [himage] at hoperand
  refine hoperand.andThen fun _ _ ⟨e, he, htree⟩ hrest => ?_
  subst htree
  exact .pure ⟨⟨.negate e, ⟨hst, he⟩, rfl⟩, hrest⟩

theorem readSimple_reads {operand : Rule} (horigin : st.has operand.origin = true)
    (himage : Image st operand = IsExpression st) (hs : LegibleTokens st ts) :
    Reads st (IsExpression st) (readSimple st rule operand ts) := by
  refine .bind fun tag htag => .ite (fun hn => ?_) fun _ => .ite (fun hb => ?_) fun _ =>
    .ite (fun hx => ?_) fun _ => .ite (fun _ => parenthesized_reads h hs) fun _ =>
    .ite (fun hminus => ?_) fun _ => .ite (fun hf => ?_) fun _ => .error _
  · exact readLeaf_number hs (headTag_of_isText htag hn)
  · obtain ⟨htext, hst⟩ := Bool.and_eq_true_iff.1 hb
    exact readLeaf_boolean hs hst (headTag_of_isText htag htext)
  · obtain ⟨htext, hst⟩ := Bool.and_eq_true_iff.1 hx
    exact (readLeaf_name hs (headTag_of_isText htag htext)).imp
      fun _ ⟨x, hfree, htree⟩ => ⟨.name x, ⟨hst, hfree⟩, htree⟩
  · exact negated_reads h horigin himage (Bool.and_eq_true_iff.1 hminus).2 hs
  · exact h .functionLiteral ts (Bool.and_eq_true_iff.1 hf).2 hs

/-- A name, with an argument list if one follows. -/
theorem readNameOrCall_reads (hst : st.has .functions = true) (hs : LegibleTokens st ts)
    (htag : headTag ts = .ok (.text st.nameTag)) :
    Reads st (IsExpression st) (readNameOrCall st rule ts) := by
  refine (readLeaf_name hs htag).andThen fun _ rest ⟨x, hfree, htree⟩ hrest => .bind fun _ _ => ?_
  subst htree
  have hx : (Expression.name x).Fits st := ⟨Stage.has_of_rank_le hst (by decide), hfree⟩
  refine .ite (fun _ => ?_) fun _ => .pure ⟨⟨.name x, hx, rfl⟩, hrest⟩
  refine (h .expressionList rest hst hrest).andThen fun _ _ ⟨es, hes, htree⟩ hrest' => ?_
  subst htree
  exact .pure ⟨⟨.call (.name x) es, ⟨hst, hx, hes⟩, rfl⟩, hrest'⟩

theorem readFactor_reads (hs : LegibleTokens st ts) :
    Reads st (IsExpression st) (readFactor st rule ts) := by
  cases st with
  | returns => exact h .callable ts rfl hs
  | functions =>
    refine .bind fun b hb => .ite (fun hbt => ?_) fun _ => readSimple_reads h rfl rfl hs
    exact readNameOrCall_reads h rfl hs (headTag_of_nextIs hb hbt)
  | expressions | assignments | booleans | conditions | blocks | scopes =>
    exact readSimple_reads h rfl rfl hs

theorem readNegation_reads (hst : st.has .booleans = true) (hs : LegibleTokens st ts) :
    Reads st (IsExpression st) (readNegation st rule ts) := by
  refine .bind fun _ _ => .ite (fun _ => ?_) fun _ => h .comparison ts hst hs
  refine (h .negation _ hst (hs.drop 1)).andThen fun _ _ ⟨e, he, htree⟩ hrest => ?_
  subst htree
  exact .pure ⟨⟨.not e, ⟨hst, he⟩, rfl⟩, hrest⟩

/-- An operand, and operators of one level as long as they go on. -/
theorem readLeftward_reads (operand : Rule) {operators : List String}
    (horigin : st.has operand.origin = true) (himage : Image st operand = IsExpression st)
    (hsigns : ∀ tag ∈ operators, ∃ op : Operator, st.has op.origin = true ∧ op.sign = tag)
    (budget : Nat) (hs : LegibleTokens st ts) :
    Reads st (IsExpression st) (readLeftward st rule budget operand operators ts) := by
  have hoperand := h operand ts horigin hs
  rw [himage] at hoperand
  refine hoperand.andThen fun _ rest ⟨left, hleft, htree⟩ hrest => ?_
  subst htree
  exact leftward_reads h horigin himage hsigns budget left rest hleft hrest

/-- A function literal: parameters, and a block. -/
theorem readFunction_reads (hst : st.has .functions = true) (hs : LegibleTokens st ts) :
    Reads st (IsExpression st) (readFunction rule ts) := by
  have hblocks : st.has .blocks = true := Stage.has_of_rank_le hst (by decide)
  refine (skip_legible hs _).andThen fun ts₁ hs₁ => ?_
  refine (h .nameList ts₁ hst hs₁).andThen fun _ ts₂ ⟨xs, hxs, hnames⟩ hs₂ => ?_
  refine (h .blockStatement ts₂ hblocks hs₂).andThen fun _ _ ⟨ss, hss, hbody⟩ hs₃ => ?_
  subst hnames hbody
  exact .pure ⟨⟨.function xs ss, ⟨hst, hxs, hss⟩, rfl⟩, hs₃⟩

/-! ### Lists and blocks -/

omit h in
theorem readNameList_reads (budget : Nat) (hs : LegibleTokens st ts) :
    Reads st (Image st .nameList) (readNameList st budget ts) := by
  refine (skip_legible hs _).andThen fun ts₁ hs₁ => .bind fun _ _ => ?_
  refine .ite (fun _ => .pure ⟨⟨[], by simp, rfl⟩, hs₁.drop 1⟩) fun _ => ?_
  refine (parameter_reads hs₁).andThen fun _ ts₂ ⟨x, hx, htree⟩ hs₂ => ?_
  refine (moreParameters_reads budget ts₂ hs₂).andThen fun _ ts₃ ⟨xs, hxs, htrees⟩ hs₃ => ?_
  subst htree htrees
  refine (skip_legible hs₃ _).andThen fun _ hs₄ => .pure ⟨⟨x :: xs, ?_, rfl⟩, hs₄⟩
  simpa using ⟨hx, hxs⟩

theorem readExpressionList_reads (budget : Nat) (hs : LegibleTokens st ts) :
    Reads st (Image st .expressionList) (readExpressionList rule budget ts) := by
  refine (skip_legible hs _).andThen fun ts₁ hs₁ => .bind fun _ _ => ?_
  refine .ite (fun _ => .pure ⟨⟨[], trivial, rfl⟩, hs₁.drop 1⟩) fun _ => ?_
  refine (h .expression ts₁ st.has_expressions hs₁).andThen fun _ ts₂ ⟨e, he, htree⟩ hs₂ => ?_
  refine (moreExpressions_reads h budget ts₂ hs₂).andThen fun _ ts₃ ⟨es, hes, htrees⟩ hs₃ => ?_
  subst htree htrees
  exact (skip_legible hs₃ _).andThen fun _ hs₄ => .pure ⟨⟨e :: es, ⟨he, hes⟩, rfl⟩, hs₄⟩

theorem readBlock_reads (hst : st.has .blocks = true) (budget : Nat) (hs : LegibleTokens st ts) :
    Reads st (Image st .blockStatement) (readBlock rule budget ts) := by
  have hassign : st.has .assignments = true := Stage.has_of_rank_le hst (by decide)
  refine (skip_legible hs _).andThen fun ts₁ hs₁ => ?_
  refine (skipSemicolons_legible hs₁).andThen fun ts₂ hs₂ => .bind fun _ _ => ?_
  refine .ite (fun _ => .pure ⟨⟨[], trivial, rfl⟩, hs₂.drop 1⟩) fun _ => ?_
  refine (h .statement ts₂ hassign hs₂).andThen fun _ ts₃ ⟨s, hfits, htree⟩ hs₃ => ?_
  refine (moreStatements_reads h hassign budget ts₃ hs₃).andThen
    fun _ ts₄ ⟨ss, hss, htrees⟩ hs₄ => ?_
  subst htree htrees
  exact (skip_legible hs₄ _).andThen fun _ hs₅ => .pure ⟨⟨s :: ss, ⟨hfits, hss⟩, rfl⟩, hs₅⟩

/-! ### Statements -/

/-- An assignment has a name on its left side. -/
theorem readAssignment_reads (hst : st.has .assignments = true) (hs : LegibleTokens st ts) :
    Reads st (Image st .assignment) (readAssignment st rule ts) := by
  refine .bind fun b hb => .ite (fun _ => .error _) fun hbf => ?_
  have htag : headTag ts = .ok (.text st.nameTag) := headTag_of_nextIs hb (by simpa using hbf)
  refine (headValue_name hs htag).andThen fun _ ⟨x, hfree, hx⟩ => ?_
  subst hx
  refine (demand_legible (hs.drop 1) _ _).andThen fun ts₁ hs₁ => ?_
  refine (h .expression ts₁ st.has_expressions hs₁).andThen fun _ _ ⟨e, he, htree⟩ hs₂ => ?_
  subst htree
  exact .pure ⟨⟨.assign x e, ⟨hst, hfree, he⟩, rfl⟩, hs₂⟩

/-- The condition of an `if` or a `while`. -/
theorem readCondition_reads (closing : String) (hs : LegibleTokens st ts) :
    Reads st (IsExpression st) (readCondition rule closing ts) := by
  refine (demand_legible hs _ _).andThen fun ts₁ hs₁ => ?_
  refine (h .expression ts₁ st.has_expressions hs₁).andThen fun _ ts₂ he hs₂ => ?_
  exact (demand_legible hs₂ _ _).andThen fun _ hs₃ => .pure ⟨he, hs₃⟩

/-- An `if` has an `else` from `blocks` on only. -/
theorem readIf_reads (hst : st.has .conditions = true) (hs : LegibleTokens st ts) :
    Reads st (Image st .ifStatement) (readIf st rule ts) := by
  have hassign : st.has .assignments = true := Stage.has_of_rank_le hst (by decide)
  refine (skip_legible hs _).andThen fun ts₁ hs₁ => ?_
  refine (readCondition_reads h _ hs₁).andThen fun _ ts₂ ⟨c, hc, hcondition⟩ hs₂ => ?_
  refine (h .statement ts₂ hassign hs₂).andThen fun _ ts₃ ⟨s, hfits, htree⟩ hs₃ => ?_
  subst hcondition htree
  have hnone : ∃ s' : Statement, s'.Fits st ∧
      Tree.branch st (c.tree st) (s.tree st) none = s'.tree st :=
    ⟨.branch c s none, ⟨hst, hc, hfits⟩, rfl⟩
  -- both ways without `else` end in the same tree
  refine .ite (fun hblocks => .bind fun _ _ => .ite (fun _ => ?_) fun _ => ?_) fun _ => ?_
  · refine (h .statement _ hassign (hs₃.drop 1)).andThen fun _ _ ⟨a, ha, htree⟩ hs₄ => ?_
    subst htree
    exact .pure ⟨⟨.branch c s (some a), ⟨hblocks, hc, hfits, ha⟩, rfl⟩, hs₄⟩
  · exact .pure ⟨hnone, hs₃⟩
  · exact .pure ⟨hnone, hs₃⟩

/-- A loop: a condition, and a statement. -/
theorem readWhile_reads (hst : st.has .conditions = true) (hs : LegibleTokens st ts) :
    Reads st (Image st .whileStatement) (readWhile st rule ts) := by
  have hassign : st.has .assignments = true := Stage.has_of_rank_le hst (by decide)
  refine (skip_legible hs _).andThen fun ts₁ hs₁ => ?_
  refine (readCondition_reads h _ hs₁).andThen fun _ ts₂ ⟨c, hc, hcondition⟩ hs₂ => ?_
  refine (h .statement ts₂ hassign hs₂).andThen fun _ _ ⟨s, hfits, htree⟩ hs₃ => ?_
  subst hcondition htree
  exact .pure ⟨⟨.loop c s, ⟨hst, hc, hfits⟩, rfl⟩, hs₃⟩

/-- A return gives back an expression, or nothing. -/
theorem readReturn_reads (hst : st.has .functions = true) (hs : LegibleTokens st ts) :
    Reads st (Image st .returnStatement) (readReturn rule ts) := by
  refine (skip_legible hs _).andThen fun ts₁ hs₁ => .bind fun _ _ => ?_
  refine .ite (fun _ => .pure ⟨⟨.giveBack none, hst, rfl⟩, hs₁⟩) fun _ => ?_
  refine (h .expression ts₁ st.has_expressions hs₁).andThen fun _ _ ⟨e, he, htree⟩ hs₂ => ?_
  subst htree
  exact .pure ⟨⟨.giveBack (some e), ⟨hst, he⟩, rfl⟩, hs₂⟩

/-- A print lists expressions. -/
theorem readPrint_reads (hst : st.has .functions = true) (hs : LegibleTokens st ts) :
    Reads st (Image st .printStatement) (readPrint rule ts) := by
  refine (skip_legible hs _).andThen fun ts₁ hs₁ => ?_
  refine (h .expressionList ts₁ hst hs₁).andThen fun _ _ ⟨es, hes, htree⟩ hs₂ => ?_
  subst htree
  exact .pure ⟨⟨.print es, ⟨hst, hes⟩, rfl⟩, hs₂⟩

/-- The sign that is put into the tokens of a function statement is no literal. -/
theorem readFunctionStatement_reads (hst : st.has .functions = true) (hs : LegibleTokens st ts) :
    Reads st (Image st .functionStatement) (readFunctionStatement st rule ts) := by
  have hassign : st.has .assignments = true := Stage.has_of_rank_le hst (by decide)
  refine .bind fun _ _ => .bind fun _ _ => ?_
  split
  · rename_i keyword name rest
    refine .bind fun position _ => h .assignment _ hassign ?_
    have hsign : Token.Legible st (.record [("tag", .text "="), ("position", position)]) := by
      obtain ⟨hn, hb, hx⟩ := st.ne_literalTag "=" (by cases st <;> decide)
      exact .of_tag rfl (by simpa using hn) (by simpa using hb) (by simpa using hx)
    -- the name and the parts behind it are tokens of the text; only the sign is new
    intro t ht
    simp only [List.mem_cons] at ht
    obtain rfl | rfl | rfl | ht := ht
    · exact hs t (by simp)
    · exact hsign
    · exact hs t (by simp)
    · exact hs t (by simp [ht])
  · exact .error _

/-- The first token chooses the rule. What it does not tell apart is an expression, as a
statement. -/
theorem readStatement_reads (hst : st.has .assignments = true) (hs : LegibleTokens st ts) :
    Reads st (Image st .statement) (readStatement st rule ts) := by
  have hexpression : Reads st (Image st .statement) (rule .expression ts) :=
    (h .expression ts st.has_expressions hs).imp fun _ ⟨e, he, htree⟩ => ⟨.expression e, he, htree⟩
  refine .bind fun _ _ => .ite (fun hif => ?_) fun _ => .ite (fun hwhile => ?_) fun _ =>
    .ite (fun hfunction => .bind fun _ _ => ?_) fun _ => .ite (fun hreturn => ?_) fun _ =>
    .ite (fun hprint => ?_) fun _ => .ite (fun hblock => ?_) fun _ =>
    .ite (fun _ => .bind fun _ _ => ?_) fun _ => hexpression
  -- each keyword is recognized only at stages that have the statement
  · exact h .ifStatement ts (Bool.and_eq_true_iff.1 hif).2 hs
  · exact h .whileStatement ts (Bool.and_eq_true_iff.1 hwhile).2 hs
  · refine .ite (fun _ => ?_) fun _ => hexpression
    exact h .functionStatement ts (Bool.and_eq_true_iff.1 hfunction).2 hs
  · exact h .returnStatement ts (Bool.and_eq_true_iff.1 hreturn).2 hs
  · exact h .printStatement ts (Bool.and_eq_true_iff.1 hprint).2 hs
  · have hblocks := (Bool.and_eq_true_iff.1 hblock).2
    exact (h .blockStatement ts hblocks hs).imp
      fun _ ⟨ss, hss, htree⟩ => ⟨.block ss, ⟨hblocks, hss⟩, htree⟩
  · exact .ite (fun _ => h .assignment ts hst hs) fun _ => hexpression

/-- **A rule of the stage gives trees of its image** if the rules inside it do. -/
theorem step_image (budget : Nat) (r : Rule) (hr : st.has r.origin = true)
    (hs : LegibleTokens st ts) : Reads st (Image st r) (step st rule budget r ts) := by
  cases r with
  | statement => exact readStatement_reads h hr hs
  | ifStatement => exact readIf_reads h hr hs
  | whileStatement => exact readWhile_reads h hr hs
  | blockStatement => exact readBlock_reads h hr budget hs
  | returnStatement => exact readReturn_reads h hr hs
  | printStatement => exact readPrint_reads h hr hs
  | functionStatement => exact readFunctionStatement_reads h hr hs
  | assignment => exact readAssignment_reads h hr hs
  | expression =>
    show Reads st (IsExpression st) (rule (if st.has .booleans then disjunction else sum) ts)
    split
    · exact h .disjunction ts ‹_› hs
    · exact h .sum ts st.has_expressions hs
  | disjunction =>
    exact readLeftward_reads h .conjunction hr rfl (by simpa using ⟨.or, hr, rfl⟩) budget hs
  | conjunction =>
    exact readLeftward_reads h .negation hr rfl (by simpa using ⟨.and, hr, rfl⟩) budget hs
  | negation => exact readNegation_reads h hr hs
  | comparison =>
    refine readLeftward_reads h .sum st.has_expressions rfl ?_ budget hs
    simpa using ⟨⟨.less, hr, rfl⟩, ⟨.greater, hr, rfl⟩, ⟨.lessEqual, hr, rfl⟩,
      ⟨.greaterEqual, hr, rfl⟩, ⟨.equal, hr, rfl⟩, ⟨.unequal, hr, rfl⟩⟩
  | sum =>
    refine readLeftward_reads h .product hr rfl ?_ budget hs
    simpa using ⟨⟨.plus, hr, rfl⟩, ⟨.minus, hr, rfl⟩⟩
  | product =>
    refine readLeftward_reads h .factor hr rfl ?_ budget hs
    simpa using ⟨⟨.times, hr, rfl⟩, ⟨.divide, hr, rfl⟩⟩
  | factor => exact readFactor_reads h hs
  -- a callable expression is a simple one with calls behind it
  | callable =>
    refine (h .simple ts hr hs).andThen fun _ rest ⟨callee, hcallee, htree⟩ hrest => ?_
    subst htree
    exact calls_reads h (Stage.has_of_rank_le hr (by decide)) budget callee rest hcallee hrest
  | simple => exact readSimple_reads h hr rfl hs
  | functionLiteral => exact readFunction_reads h hr hs
  | nameList => exact readNameList_reads budget hs
  | expressionList => exact readExpressionList_reads h budget hs

end Steps

/-- A rule of the stage gives trees of its image, by induction on the budget. -/
theorem apply_image (st : Stage) : ∀ (budget : Nat) (r : Rule) (ts : List Token),
    st.has r.origin = true → LegibleTokens st ts → Reads st (Image st r) (apply st budget r ts)
  | 0, _, _, _, _ => .error _
  | budget + 1, r, _, hr, hs => step_image (apply_image st budget) budget r hr hs

end Rule

/-- The parser gives trees of statements, at the first stage of expressions only. -/
theorem parse_image {st : Stage} {ts : List Token} (hts : Rule.LegibleTokens st ts) :
    Yields (fun t => ∃ s : Statement, s.Fits st ∧ t = s.tree st) (parse st ts) := by
  -- the ending is no literal, so it spoils nothing
  have hs : Rule.LegibleTokens st (ts ++ [Token.ending]) := by
    intro t ht
    obtain ht | ht := List.mem_append.1 ht
    · exact hts t ht
    · rw [List.mem_singleton.1 ht]
      exact Token.ending_legible st
  have hread : ∀ r : Rule, st.has r.origin = true →
      Rule.Reads st (r.Image st) (r.read st (ts ++ [Token.ending])) :=
    fun r hr => Rule.apply_image st _ r _ hr hs
  have hstart : Rule.Reads st (fun t => ∃ s : Statement, s.Fits st ∧ t = s.tree st)
      (Rule.read st (if st.has .assignments then .statement else .expression)
        (ts ++ [Token.ending])) := by
    split
    · exact hread .statement ‹_›
    · exact (hread .expression st.has_expressions).imp
        fun _ ⟨e, he, htree⟩ => ⟨.expression e, he, htree⟩
  exact hstart.andThen fun _ _ ht _ => .pure ht

/-- **The tree of a program text is the tree of a statement** that a text of the stage can hold. -/
theorem Program.tree_fits {st : Stage} {code : String} {t : Tree}
    (h : Program.tree st code = .ok t) : ∃ s : Statement, s.Fits st ∧ t = s.tree st := by
  have hyields : Yields (fun t => ∃ s : Statement, s.Fits st ∧ t = s.tree st)
      (Program.tree st code) :=
    (tokenize_legible st code).andThen fun _ hts => parse_image hts
  exact hyields t h

/-- The tree of a program text is the tree of a statement, at every stage. -/
theorem Program.tree_image {st : Stage} {code : String} {t : Tree}
    (h : Program.tree st code = .ok t) : ∃ s : Statement, t = s.tree st := by
  obtain ⟨s, -, hs⟩ := Program.tree_fits h
  exact ⟨s, hs⟩

end Stepwise
