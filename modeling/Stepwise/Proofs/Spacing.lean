import Stepwise.Proofs.Braces
import Stepwise.Proofs.Comments
import Stepwise.Proofs.Neighbours
import Stepwise.Proofs.Pieces

/-!
# Where a program needs spaces

The tokens of a program can be written without a space between them, but for two places: two words
that would run together, and two minus signs, which would be one symbol that no rule knows
(`tokenize_spacing`). Every other symbol that is the beginning of a longer one is a sign with a
phrase behind it, and no phrase starts with what would make it longer.

- `Token.Written`: the characters by themselves are the token;
- `Lexeme.spaced`: pieces of text with a space between some of them;
- `Lexeme.classify_between`: what stands between two pieces keeps them apart.
-/

namespace Stepwise

open Token (Is)

namespace Lexeme

/-! ## Spaces -/

/-- Pieces of text one behind the other, with a space between two that `apart` keeps apart. -/
def spaced (apart : List Char → List Char → Bool) : List (List Char) → List Char
  | [] => []
  | [cs] => cs
  | cs :: ds :: css => cs ++ ((if apart cs ds then [' '] else []) ++ spaced apart (ds :: css))

/-- The one piece ends and the other one starts with a letter, a digit, an underscore or a point. -/
def meets (cs ds : List Char) : Bool :=
  cs.getLast?.any isWordy && ds.head?.any isWordy

/-- Such pieces, and two minus signs. -/
def meetsOrMinus (cs ds : List Char) : Bool :=
  meets cs ds || (cs == ['-'] && ds == ['-'])

/-- A text of pieces starts as its first piece. -/
theorem head?_spaced (apart : List Char → List Char → Bool) {ds : List Char} (hds : ds ≠ [])
    (css : List (List Char)) : (spaced apart (ds :: css)).head? = ds.head? := by
  cases css with
  | nil => rfl
  | cons es css => rw [spaced, List.head?_append_of_ne_nil _ hds]

/-- If no two minus signs are neighbours, no space is needed between minus signs. -/
theorem spaced_meetsOrMinus {css : List (List Char)} (h : ¬ [['-'], ['-']] <:+: css) :
    spaced meetsOrMinus css = spaced meets css := by
  induction css with
  | nil => rfl
  | cons cs css ih =>
    cases css with
    | nil => rfl
    | cons ds css =>
      have hrest : ¬ [['-'], ['-']] <:+: ds :: css :=
        fun hpair => h (hpair.trans (List.suffix_cons cs _).isInfix)
      have hminus : (cs == ['-'] && ds == ['-']) = false := by
        rw [Bool.eq_false_iff, ne_eq, Bool.and_eq_true, beq_iff_eq, beq_iff_eq]
        rintro ⟨rfl, rfl⟩
        exact h ⟨[], css, rfl⟩
      rw [spaced, spaced, ih hrest, meetsOrMinus, hminus, Bool.or_false]

end Lexeme

/-! ## Tokens -/

/-- The characters write the token: by themselves they are one lexeme, and the token is the one of
this lexeme, at some place. -/
def Token.Written (st : Stage) (t : Token) (cs : List Char) : Prop :=
  ∃ kind position, Lexeme.classify st cs = some (kind, cs.length) ∧
    Lexeme.token st ⟨kind, cs, position⟩ = .ok t

theorem Concur.trans {α β γ : Type} {x : Except Fault α} {y : Except Fault β} {z : Except Fault γ}
    (h : Concur (fun _ _ => True) x y) (h' : Concur (fun _ _ => True) y z) :
    Concur (fun _ _ => True) x z := by
  match x, y, z with
  | .ok _, .ok _, .ok _ => trivial
  | .error _, .error _, .error _ => exact Eq.trans h' h

theorem Concur.symm {α β : Type} {x : Except Fault α} {y : Except Fault β}
    (h : Concur (fun _ _ => True) x y) : Concur (fun _ _ => True) y x := by
  match x, y with
  | .ok _, .ok _ => trivial
  | .error _, .error _ => exact Eq.symm h

theorem Token.Alike.trans {t t' t'' : Token} (h : Alike t t') (h' : Alike t' t'') : Alike t t'' :=
  ⟨h'.tag.trans h.tag, h'.value.trans h.value, h.position.trans h'.position⟩

theorem Token.Alike.symm {t t' : Token} (h : Alike t t') : Alike t' t :=
  ⟨h.tag.symm, h.value.symm, h.position.symm⟩

theorem Token.Alike.is {t t' : Token} (h : Alike t t') {tag : String} (ht : Is tag t') :
    Is tag t :=
  h.tag.symm.trans ht

namespace Lexeme

variable {st : Stage}

/-- The same characters at another place are the same token there. -/
theorem token_alike {kind : LexClass} {cs : List Char} {position : Nat} {t : Token}
    (h : token st ⟨kind, cs, position⟩ = .ok t) (position' : Nat) :
    ∃ t', token st ⟨kind, cs, position'⟩ = .ok t' ∧ Token.Alike t t' := by
  have hmoved := token_moved st position ⟨kind, cs, 0⟩
  have hmoved' := token_moved st position' ⟨kind, cs, 0⟩
  rw [moved, Nat.zero_add] at hmoved hmoved'
  cases ht₀ : token st ⟨kind, cs, 0⟩ with
  | error e =>
    rw [ht₀, h] at hmoved
    cases hmoved
  | ok t₀ =>
    rw [ht₀] at hmoved hmoved'
    obtain rfl : t = t₀.moved position := Except.ok.inj (h.symm.trans hmoved)
    exact ⟨_, hmoved', (Token.alike_moved position t₀).symm.trans (Token.alike_moved position' t₀)⟩

/-- The token is one that rules look for, and the characters are those of its lexeme. -/
structure Piece (st : Stage) (tag : String) (t : Token) (cs : List Char) : Prop where
  is : Is tag t
  looks : Looks st tag cs
  /-- If the characters stay a lexeme by themselves, the token stands before those of the rest. -/
  tokens : ∀ rest position, classify st (cs ++ rest) = classify st cs →
    ∃ t', Token.Alike t t' ∧ tokensAt st position (cs ++ rest) =
      (tokensAt st (position + cs.length) rest).map (t' :: ·)

/-- A lexeme that rules look for makes a token. -/
theorem skips_of_isLooked {kind : LexClass} (h : isLooked kind = true) :
    st.skips kind = false := by
  cases kind with
  | comment | blank | string => cases h
  | number | boolean | word | name => rfl

/-- A written token that rules look for is a piece of text by itself. -/
theorem piece_of_written {t : Token} {cs : List Char} (h : Token.Written st t cs)
    (hknown : ∃ tag ∈ "/" :: Rule.vocabulary st, Is tag t) : ∃ tag, Piece st tag t cs := by
  obtain ⟨kind, place, hclass, htoken⟩ := h
  obtain ⟨tag, htag, ht⟩ := hknown
  obtain rfl := Rule.tag_unique ht (is_tagOf htoken)
  have happend : classify st (cs ++ []) = some (kind, cs.length) := by rwa [List.append_nil]
  have hlooks := looks_of_classify happend htag
  refine ⟨_, ht, hlooks.2, fun rest position hrest => ?_⟩
  obtain ⟨t', ht', halike⟩ := token_alike htoken position
  exact ⟨t', halike, tokensAt_cut (hrest.trans hclass) (skips_of_isLooked hlooks.1) ht'⟩

theorem Looks.ne_nil {tag : String} {cs : List Char} (h : Looks st tag cs) : cs ≠ [] := by
  cases h with
  | wordy hne _ => exact hne
  | symbol hcs htag =>
    have hall : ∀ op ∈ symbols st, op.toList ≠ [] := by cases st <;> decide
    exact hcs ▸ hall tag htag

/-- **What stands between two pieces keeps them apart**: a space, or nothing if they do not meet
and are not two minus signs. -/
theorem classify_between {apart : List Char → List Char → Bool} {tag tag' : String}
    {cs ds rest : List Char} (hmeets : meets cs ds = true → apart cs ds = true)
    (hcs : Looks st tag cs) (hds : Looks st tag' ds)
    (hopener : tag ∈ Rule.demanding → tag' ∈ Rule.openers st)
    (hminus : apart cs ds = true ∨ ¬ (cs = ['-'] ∧ ds = ['-'])) (hrest : rest.head? = ds.head?) :
    classify st (cs ++ ((if apart cs ds then [' '] else []) ++ rest)) = classify st cs := by
  cases hcs with
  | wordy hne hwordy =>
    refine classify_wordy hne hwordy ?_
    split
    · rintro _ ⟨⟩
      decide
    · rename_i hnot
      -- the first piece ends in such a character, so the second one starts with another
      intro c hc
      rw [List.nil_append, hrest] at hc
      have hlast : cs.getLast?.any isWordy = true := by
        rw [List.getLast?_eq_some_getLast hne, Option.any_some]
        exact hwordy _ (List.getLast_mem hne)
      by_contra hc'
      refine hnot (hmeets ?_)
      rw [meets, hlast, Bool.true_and, Option.any_eq_true]
      exact ⟨c, hc, Bool.eq_true_of_not_eq_false hc'⟩
  | symbol hcs htag =>
    subst hcs
    refine classify_symbol htag ?_
    split
    · rintro _ ⟨⟩ hspace
      have hall : ∀ d ∈ doubling, d.2 ≠ ' ' := by decide
      exact hall _ hspace rfl
    · rename_i hnot
      intro c hc hdoubling
      rw [List.nil_append, hrest] at hc
      have hall : ∀ d ∈ doubling, d.1 ∈ Rule.demanding := by decide
      obtain ⟨rfl, rfl⟩ := hds.not_doubling (hopener (hall _ hdoubling)) hc hdoubling
      exact (hminus.resolve_left hnot) ⟨rfl, rfl⟩

/-- Two minus signs with nothing between them are one symbol. -/
theorem tokensAt_decrement (hst : st.has .booleans = true) (rest : List Char) (position : Nat) :
    Yields (fun us => ∃ t ∈ us, Is "--" t) (tokensAt st position ('-' :: '-' :: rest)) := by
  have hsymbol : "--" ∈ symbols st := by
    cases st with
    | expressions | assignments => cases hst
    | booleans | conditions | blocks | scopes | functions | returns => decide
  have halone : classify st "--".toList = some (.word "--", "--".toList.length) := by
    cases st with
    | expressions | assignments => cases hst
    | booleans | conditions | blocks | scopes | functions | returns => rfl
  -- no symbol is longer than this one and starts with it
  have hlong : ∀ d ∈ doubling, d.1 ≠ "--" := by decide
  have hclass : classify st ("--".toList ++ rest) = some (.word "--", "--".toList.length) :=
    (classify_symbol hsymbol fun c _ hc => hlong _ hc rfl).trans halone
  obtain ⟨t, ht⟩ : ∃ t, token st ⟨.word "--", "--".toList, position⟩ = .ok t := ⟨_, rfl⟩
  have htokens : tokensAt st position ('-' :: '-' :: rest) = _ := tokensAt_cut hclass rfl ht
  rw [htokens]
  cases tokensAt st (position + "--".toList.length) rest with
  | error e => exact .error e
  | ok us => exact .pure ⟨t, by simp, is_tagOf ht⟩

section Written

variable {apart : List Char → List Char → Bool}
  (hmeets : ∀ cs ds, meets cs ds = true → apart cs ds = true)
include hmeets

/-- One token is cut off. -/
theorem tokensAt_spaced_cons {t u : Token} {ts : List Token} {cs ds : List Char}
    (css : List (List Char)) (ht : Token.Written st t cs) (hu : Token.Written st u ds)
    (hknown : ∀ v ∈ t :: u :: ts, ∃ tag ∈ "/" :: Rule.vocabulary st, Is tag v)
    (hmet : Rule.Met st (t :: u :: ts ++ [Token.ending]) [Token.ending])
    (hminus : apart cs ds = true ∨ ¬ (cs = ['-'] ∧ ds = ['-'])) (position : Nat) :
    ∃ t' position', Token.Alike t t' ∧ tokensAt st position (spaced apart (cs :: ds :: css)) =
      (tokensAt st position' (spaced apart (ds :: css))).map (t' :: ·) := by
  obtain ⟨tag, hcs⟩ := piece_of_written ht (hknown t (by simp))
  obtain ⟨tag', hds⟩ := piece_of_written hu (hknown u (by simp))
  -- behind a sign that demands a phrase stands the beginning of one
  have hopener : tag ∈ Rule.demanding → tag' ∈ Rule.openers st := by
    intro htag
    obtain ⟨opener, hopener, hhead⟩ := hmet.head (by simp) htag hcs.is
    rwa [Rule.tag_unique (show Is opener u from hhead) hds.is] at hopener
  have hclass := classify_between (hmeets cs ds) hcs.looks hds.looks hopener hminus
    (head?_spaced apart hds.looks.ne_nil css)
  obtain ⟨t', halike, htokens⟩ := hcs.tokens _ position hclass
  rw [spaced, htokens]
  split
  · rw [List.singleton_append, tokensAt_space]
    exact ⟨t', _, halike, rfl⟩
  · exact ⟨t', _, halike, rfl⟩

/-- **Pieces that are kept apart where they meet are the tokens they were.** -/
theorem tokensAt_spaced {ts : List Token} {css : List (List Char)}
    (hwritten : List.Forall₂ (Token.Written st) ts css)
    (hknown : ∀ t ∈ ts, ∃ tag ∈ "/" :: Rule.vocabulary st, Is tag t)
    (hmet : Rule.Met st (ts ++ [Token.ending]) [Token.ending])
    (hminus : apart ['-'] ['-'] = true) (position : Nat) :
    ∃ us, tokensAt st position (spaced apart css) = .ok us ∧ Rule.Abreast ts us := by
  induction hwritten generalizing position with
  | nil => exact ⟨[], rfl, .nil⟩
  | @cons t cs ts css ht hwritten ih =>
    cases hwritten with
    | nil =>
      obtain ⟨tag, hcs⟩ := piece_of_written ht (hknown t (by simp))
      obtain ⟨t', halike, htokens⟩ := hcs.tokens [] position (by rw [List.append_nil])
      rw [List.append_nil] at htokens
      exact ⟨[t'], htokens, .cons halike .nil⟩
    | @cons u ds ts css hu hwritten =>
      -- two minus signs are kept apart by hypothesis
      have hapart : apart cs ds = true ∨ ¬ (cs = ['-'] ∧ ds = ['-']) := by
        by_cases hboth : cs = ['-'] ∧ ds = ['-']
        · obtain ⟨rfl, rfl⟩ := hboth
          exact .inl hminus
        · exact .inr hboth
      obtain ⟨t', position', halike, htokens⟩ :=
        tokensAt_spaced_cons hmeets css ht hu hknown hmet hapart position
      obtain ⟨us, hus, hbreast⟩ := ih (fun v hv => hknown v (by simp [hv]))
        (hmet.tail (by simp)) position'
      rw [hus] at htokens
      exact ⟨t' :: us, htokens, .cons halike hbreast⟩

/-- Two minus signs that are not kept apart make a symbol somewhere in the tokens. -/
theorem exists_decrement {ts : List Token} {css : List (List Char)}
    (hwritten : List.Forall₂ (Token.Written st) ts css)
    (hknown : ∀ t ∈ ts, ∃ tag ∈ "/" :: Rule.vocabulary st, Is tag t)
    (hmet : Rule.Met st (ts ++ [Token.ending]) [Token.ending])
    (hst : st.has .booleans = true) (hminus : apart ['-'] ['-'] = false)
    (hpair : [['-'], ['-']] <:+: css) (position : Nat) :
    Yields (fun us => ∃ t ∈ us, Is "--" t) (tokensAt st position (spaced apart css)) := by
  induction hwritten generalizing position with
  | nil => exact absurd hpair (by simp)
  | @cons t cs ts css ht hwritten ih =>
    cases hwritten with
    | nil => exact absurd hpair.length_le (by simp)
    | @cons u ds ts css hu hwritten =>
      -- the first pair of pieces is that of the signs, or they stand further on
      by_cases hboth : cs = ['-'] ∧ ds = ['-']
      · obtain ⟨rfl, rfl⟩ := hboth
        obtain ⟨rest, hrest⟩ : ∃ rest, spaced apart (['-'] :: css) = '-' :: rest :=
          List.head?_eq_some_iff.1 (head?_spaced apart (by simp) css)
        rw [spaced, hminus, hrest]
        exact tokensAt_decrement hst rest position
      · obtain ⟨t', position', -, htokens⟩ :=
          tokensAt_spaced_cons hmeets css ht hu hknown hmet (.inr hboth) position
        have hlater : [['-'], ['-']] <:+: ds :: css := by
          rcases List.infix_cons_iff.1 hpair with hfirst | hlater
          · simp only [List.cons_prefix_cons] at hfirst
            exact absurd ⟨hfirst.1.symm, hfirst.2.1.symm⟩ hboth
          · exact hlater
        have hyields := ih (fun v hv => hknown v (by simp [hv])) (hmet.tail (by simp)) hlater
          position'
        rw [htokens]
        cases hus : tokensAt st position' (spaced apart (ds :: css)) with
        | error e => exact .error e
        | ok us =>
          obtain ⟨v, hv, hdecrement⟩ := hyields us hus
          exact .pure ⟨v, List.mem_cons_of_mem _ hv, hdecrement⟩

end Written

theorem Looks.plain {tag : String} {cs : List Char} (h : Looks st tag cs) : isPlain cs = true := by
  cases h with
  | wordy hne hwordy => exact isPlain_wordy hne hwordy
  | symbol hcs htag => exact hcs ▸ isPlain_symbol tag htag

/-- **The lexemes of a text write its tokens**, if rules look for all of them. -/
theorem exists_written {code : String} {ts : List Token} (h : tokenize st code = .ok ts)
    (hknown : ∀ t ∈ ts, ∃ tag ∈ "/" :: Rule.vocabulary st, Is tag t) :
    ∃ css, List.Forall₂ (Token.Written st) ts css := by
  obtain ⟨xs, hcuts, htokens⟩ := exists_cuts_of_tokensAt h
  have hpairs := mapM_eq_ok_iff.1 htokens
  refine ⟨(xs.filter (kept st)).map text, ?_⟩
  rw [List.forall₂_map_right_iff]
  have hall : ∀ x ∈ xs.filter (kept st), ∃ rest,
      classify st (x.text ++ rest) = some (x.kind, x.text.length) :=
    fun x hx => hcuts.classified (List.mem_of_mem_filter hx)
  generalize xs.filter (kept st) = ys at hpairs hall
  clear h htokens
  induction hpairs with
  | nil => exact .nil
  | @cons x t xs ts ht _ ih =>
    refine .cons ?_ (ih (fun u hu => hknown u (by simp [hu])) fun y hy => hall y (by simp [hy]))
    obtain ⟨rest, hclass⟩ := hall x (by simp)
    obtain ⟨tag, htag, hu⟩ := hknown t (by simp)
    -- the tag that rules look for is the tag of the class
    obtain rfl := Rule.tag_unique hu (is_tagOf ht)
    obtain ⟨hkind, hlooks⟩ := looks_of_classify hclass htag
    exact ⟨x.kind, x.position, classify_alone hclass hkind hlooks.plain, ht⟩

end Lexeme

theorem Token.exists_alike {ts us : List Token} (h : List.Forall₂ Token.Alike ts us) {u : Token}
    (hu : u ∈ us) : ∃ t ∈ ts, Token.Alike t u := by
  induction h with
  | nil => cases hu
  | @cons t v ts us htv _ ih =>
    rcases List.mem_cons.1 hu with rfl | hu
    · exact ⟨t, by simp, htv⟩
    · obtain ⟨t', ht', halike⟩ := ih hu
      exact ⟨t', List.mem_cons_of_mem _ ht', halike⟩

/-- **Between the tokens of a program no space is needed, but between words and between minus
signs.** Take the tokens of a program, from `booleans` on, with characters that write each of them;
if they come from a text, there are such characters. Written with a space only where two neighbours
have a letter, a digit, an underscore or a point on both sides, or where both are minus signs, they
are cut into the same tokens again, and the tree is the same. Without the space between minus signs
this is so exactly if no two minus signs are neighbours. -/
theorem tokenize_spacing {st : Stage} (hst : st.has .booleans = true) {ts : List Token}
    {tree : Tree} (hwhole : Rule.Whole st ts tree) :
    (∀ code, tokenize st code = .ok ts → ∃ css, List.Forall₂ (Token.Written st) ts css) ∧
    ∀ css, List.Forall₂ (Token.Written st) ts css →
      (∃ us, tokenize st (String.ofList (Lexeme.spaced Lexeme.meetsOrMinus css)) = .ok us ∧
        List.Forall₂ Token.Alike ts us ∧ parse st us = .ok tree) ∧
      ((∃ us, tokenize st (String.ofList (Lexeme.spaced Lexeme.meets css)) = .ok us ∧
        List.Forall₂ Token.Alike ts us ∧ parse st us = .ok tree) ↔
        ¬ [['-'], ['-']] <:+: css) := by
  have hknown := hwhole.taken.known
  have hmet : Rule.Met st (ts ++ [Token.ending]) [Token.ending] := Rule.read_met hwhole
  refine ⟨fun code hcode => Lexeme.exists_written hcode hknown, fun css hcss => ?_⟩
  have htokenize : ∀ cs, tokenize st (String.ofList cs) = Lexeme.tokensAt st 0 cs := by
    intro cs
    rw [tokenize, Lexeme.scan, String.toList_ofList]
    rfl
  have hback : ∃ us, tokenize st (String.ofList (Lexeme.spaced Lexeme.meetsOrMinus css)) = .ok us ∧
      List.Forall₂ Token.Alike ts us ∧ parse st us = .ok tree := by
    have hmeets : ∀ cs ds, Lexeme.meets cs ds = true → Lexeme.meetsOrMinus cs ds = true := by
      intro cs ds hmeets
      rw [Lexeme.meetsOrMinus, hmeets, Bool.true_or]
    obtain ⟨us, hus, halike⟩ := Lexeme.tokensAt_spaced hmeets hcss hknown hmet (by decide) 0
    have hparse : parse st us = .ok tree :=
      parse_alike halike (parse_eq_ok_iff_read.2 ⟨_, hwhole⟩)
    exact ⟨us, (htokenize _).trans hus, halike, hparse⟩
  refine ⟨hback, fun hgiven hminus => ?_, fun hminus => ?_⟩
  · -- one of the tokens would be a symbol that no rule looks for
    obtain ⟨us, hus, halike, -⟩ := hgiven
    rw [htokenize] at hus
    obtain ⟨u, hu, hdecrement⟩ := Lexeme.exists_decrement (fun _ _ h => h) hcss hknown hmet
      hst (by decide) hminus 0 us hus
    obtain ⟨t, ht, htu⟩ := Token.exists_alike halike hu
    obtain ⟨tag, htag, htag'⟩ := hknown t ht
    have hnone : "--" ∉ "/" :: Rule.vocabulary st := by cases st <;> decide
    rw [Rule.tag_unique htag' (htu.is hdecrement)] at htag
    exact hnone htag
  · rwa [← Lexeme.spaced_meetsOrMinus hminus]

/-- One minus one more, the second one with a minus of its own. -/
def minusesTokens : List Token :=
  [Token.make "<number>" (some (.int 1)) 0, Token.make "-" none 2, Token.make "-" none 4,
   Token.make "<number>" (some (.int 1)) 5]

/-- The characters of these tokens. -/
def minusesPieces : List (List Char) :=
  [['1'], ['-'], ['-'], ['1']]

/-- The two minus signs run together, and the program is another one. -/
theorem minuses_run_together :
    tokenize .returns "1 - -1" = .ok minusesTokens ∧
    Rule.Whole .returns minusesTokens
      (Tree.binary .returns "-" (Tree.leaf .returns "<number>" (.int 1))
        (Tree.unary .returns "negate" (Tree.leaf .returns "<number>" (.int 1)))) ∧
    List.Forall₂ (Token.Written .returns) minusesTokens minusesPieces ∧
    String.ofList (Lexeme.spaced Lexeme.meets minusesPieces) = "1--1" ∧
    (¬ ∃ us, tokenize .returns "1--1" = .ok us ∧ List.Forall₂ Token.Alike minusesTokens us) ∧
    Program.tree .returns "1--1" = .ok (Tree.leaf .returns "<number>" (.int 1)) := by
  have htokens : tokenize .returns "1--1" = .ok [Token.make "<number>" (some (.int 1)) 0,
      Token.make "--" none 1, Token.make "<number>" (some (.int 1)) 3] := rfl
  refine ⟨rfl, rfl, ?_, rfl, ?_, rfl⟩
  · exact .cons ⟨_, 0, rfl, rfl⟩ (.cons ⟨_, 2, rfl, rfl⟩ (.cons ⟨_, 4, rfl, rfl⟩
      (.cons ⟨_, 5, rfl, rfl⟩ .nil)))
  · rintro ⟨us, hus, halike⟩
    obtain rfl := Except.ok.inj (htokens.symm.trans hus)
    cases halike.length_eq

/-- The tokens of an assignment with signs of all kinds side by side. -/
def denialTokens : List Token :=
  [Token.make "identifier" (some (.text "x")) 0, Token.make "=" (some (.text "=")) 2,
   Token.make "!" (some (.text "!")) 4, Token.make "(" (some (.text "(")) 6,
   Token.make "identifier" (some (.text "y")) 8, Token.make "-" (some (.text "-")) 10,
   Token.make "-" (some (.text "-")) 12, Token.make "number" (some (.int 1)) 14,
   Token.make "<=" (some (.text "<=")) 16, Token.make "-" (some (.text "-")) 19,
   Token.make "identifier" (some (.text "z")) 21, Token.make ")" (some (.text ")")) 23]

/-- The characters of these tokens. -/
def denialPieces : List (List Char) :=
  [['x'], ['='], ['!'], ['('], ['y'], ['-'], ['-'], ['1'], ['<', '='], ['-'], ['z'], [')']]

/-- The tree of the assignment. -/
def denialTree : Tree :=
  Tree.assign .booleans (Tree.leaf .booleans "identifier" (.text "x"))
    (Tree.unary .booleans "not" (Tree.binary .booleans "<="
      (Tree.binary .booleans "-" (Tree.leaf .booleans "identifier" (.text "y"))
        (Tree.unary .booleans "negate" (Tree.leaf .booleans "number" (.int 1))))
      (Tree.unary .booleans "negate" (Tree.leaf .booleans "identifier" (.text "z")))))

/-- One space is left. -/
theorem tokenize_spacing_of_denial :
    tokenize .booleans "x = ! ( y - - 1 <= - z )" = .ok denialTokens ∧
    Rule.Whole .booleans denialTokens denialTree ∧
    List.Forall₂ (Token.Written .booleans) denialTokens denialPieces ∧
    (∃ us, tokenize .booleans "x=!(y- -1<=-z)" = .ok us ∧
      List.Forall₂ Token.Alike denialTokens us ∧ parse .booleans us = .ok denialTree) ∧
    ¬ ∃ us, tokenize .booleans "x=!(y--1<=-z)" = .ok us ∧
      List.Forall₂ Token.Alike denialTokens us ∧ parse .booleans us = .ok denialTree := by
  have hwhole : Rule.Whole .booleans denialTokens denialTree := rfl
  have hwritten : List.Forall₂ (Token.Written .booleans) denialTokens denialPieces :=
    .cons ⟨_, 0, rfl, rfl⟩ (.cons ⟨_, 2, rfl, rfl⟩ (.cons ⟨_, 4, rfl, rfl⟩
      (.cons ⟨_, 6, rfl, rfl⟩ (.cons ⟨_, 8, rfl, rfl⟩ (.cons ⟨_, 10, rfl, rfl⟩
      (.cons ⟨_, 12, rfl, rfl⟩ (.cons ⟨_, 14, rfl, rfl⟩ (.cons ⟨_, 16, rfl, rfl⟩
      (.cons ⟨_, 19, rfl, rfl⟩ (.cons ⟨_, 21, rfl, rfl⟩ (.cons ⟨_, 23, rfl, rfl⟩ .nil)))))))))))
  obtain ⟨hback, hiff⟩ := (tokenize_spacing rfl hwhole).2 denialPieces hwritten
  have hminus : [['-'], ['-']] <:+: denialPieces :=
    ⟨[['x'], ['='], ['!'], ['('], ['y']], [['1'], ['<', '='], ['-'], ['z'], [')']], rfl⟩
  exact ⟨rfl, hwhole, hwritten, hback, fun hgiven => hiff.1 hgiven hminus⟩

end Stepwise
