import Stepwise.Proofs.ParserLocality
import Stepwise.Proofs.Placement
import Stepwise.Proofs.Seams

/-!
# Texts in braces

What is known of a text in braces without its closing brace: the tokens before the brace, and the
statements that they hold, stay what they are if a semicolon follows and more statements behind it.

- `Lexeme.classify_sign`: a brace or a semicolon is a lexeme by itself, whatever follows;
- `Cuts.finished`: no comment is left open in a text whose tokens hold no two slashes in a row;
- `tokensAt_wrapped`: the tokens of a text in braces, and with something else for the last brace;
- `Rule.Sequence st ts ss rest`: the tokens `ts` hold the statements `ss`, up to the closing brace
  at the head of `rest`. A block is such a sequence between braces (`read_block_iff`), and two
  sequences are joined by a semicolon (`Sequence.join`).
-/

namespace Stepwise

/-! ## Tokens around a seam -/

namespace Lexeme

/-- The signs at seams, and the slash. -/
def seamSigns : List Char := [';', '\x7b', '\x7d', '/']

/-- A spelling of one character, or one that starts with no such sign, reaches as far with anything
behind. -/
theorem wordReach_first {spelling : String} {c : Char} (hc : c ∈ seamSigns)
    (h : (spelling.toList.tail.isEmpty ||
      spelling.toList.head?.all fun d => !seamSigns.contains d) = true)
    (rest : List Char) : wordReach spelling (c :: rest) = wordReach spelling [c] := by
  unfold wordReach
  cases hs : spelling.toList with
  | nil => rfl
  | cons d ds =>
    cases ds with
    | nil => simp [List.isPrefixOf_cons_cons]
    | cons e es =>
      have hne : d ≠ c := by
        rintro rfl
        simp [hs, hc] at h
      simp [List.isPrefixOf_cons_cons, hne]

/-- Such a sign is a lexeme by itself, whatever follows, unless a comment starts there. -/
theorem classify_sign (st : Stage) {c : Char} (hc : c ∈ seamSigns) {rest : List Char}
    (hcomment : commentReach (c :: rest) = 0) :
    classify st (c :: rest) = some (.word (String.ofList [c]), 1) := by
  have hcases : c = ';' ∨ c = '\x7b' ∨ c = '\x7d' ∨ c = '/' := by simpa [seamSigns] using hc
  have halone : classify st [c] = some (.word (String.ofList [c]), 1) := by
    rcases hcases with rfl | rfl | rfl | rfl <;> cases st <;> rfl
  -- no class but that of signs and that of comments starts with such a character
  have hclass : Text.isBlank c = false ∧ Text.isDigit c = false ∧ c ≠ '.' ∧ c ≠ '"' ∧
      isNameStart c = false := by
    rcases hcases with rfl | rfl | rfl | rfl <;> decide
  obtain ⟨hblank, hdigit, hpoint, hquote, hname⟩ := hclass
  -- and no longer spelling does
  have hwords : ∀ spelling ∈ "true" :: "false" :: (Stage.keywords ++ st.operators),
      (spelling.toList.tail.isEmpty ||
        spelling.toList.head?.all fun d => !seamSigns.contains d) = true := by
    cases st <;> decide
  have hword := fun spelling hspelling => wordReach_first hc (hwords spelling hspelling) rest
  rw [← halone]
  refine classify_congr fun kind hkind => ?_
  cases kind with
  | comment =>
    refine hcomment.trans ?_
    simp [LexClass.reach, commentReach]
  | blank => simp [LexClass.reach, hblank]
  | number => simp [LexClass.reach, numberReach, hdigit, hpoint]
  | string => simp [LexClass.reach, stringReach, hquote]
  | boolean => simp [LexClass.reach, hword "true" (by simp), hword "false" (by simp)]
  | word spelling =>
    have hmem := word_mem hkind
    exact hword spelling (List.mem_cons_of_mem _ (List.mem_cons_of_mem _ hmem))
  | name => simp [LexClass.reach, nameReach, hname]

theorem commentReach_of_ne {c : Char} (hc : c ≠ '/') (rest : List Char) :
    commentReach (c :: rest) = 0 := by
  simp [commentReach, hc]

/-- Without a line end there is no comment. -/
theorem commentReach_of_not_mem {cs : List Char} (h : '\n' ∉ cs) : commentReach cs = 0 := by
  unfold commentReach
  split
  · rename_i rest
    have hrest : '\n' ∉ rest := fun hmem => h (by simp [hmem])
    have hall : rest.takeWhile (· != '\n') = rest := by
      rw [List.takeWhile_eq_self_iff]
      intro c hc
      rw [bne_iff_ne]
      rintro rfl
      exact hrest hc
    simp [hall]
  · rfl

/-- The token of a sign stands before those of the rest, unless a comment starts there. -/
theorem tokensAt_uncommented {st : Stage} (hst : st.has .blocks = true) {c : Char}
    (hc : c ∈ seamSigns) {rest : List Char} (hcomment : commentReach (c :: rest) = 0)
    (position : Nat) : tokensAt st position (c :: rest) = (tokensAt st (position + 1) rest).map
      (Token.make (String.ofList [c]) none position :: ·) := by
  have hclass : classify st ([c] ++ rest) = some (.word (String.ofList [c]), [c].length) :=
    classify_sign st hc hcomment
  exact tokensAt_cut hclass rfl (token_word hst _ [c] position)

/-- Such a sign is a token by itself, the slash apart. -/
theorem tokensAt_sign {st : Stage} (hst : st.has .blocks = true) {c : Char} (hc : c ∈ seamSigns)
    (hslash : c ≠ '/') (position : Nat) (rest : List Char) :
    tokensAt st position (c :: rest) = (tokensAt st (position + 1) rest).map
      (Token.make (String.ofList [c]) none position :: ·) :=
  tokensAt_uncommented hst hc (commentReach_of_ne hslash rest) position

/-- A lexeme that ends in a closing brace is one. -/
theorem eq_brace_of_form {st : Stage} {kind : LexClass} {text : List Char}
    (hkind : kind ∈ st.classes) (h : kind.Form text) (hlast : text.getLast? = some '\x7d') :
    kind = .word "\x7d" ∧ text = ['\x7d'] := by
  have hmem := List.mem_of_getLast? hlast
  -- a comment ends with its line, a text with its quote; the others hold no brace but the sign
  cases kind with
  | comment =>
    obtain ⟨body, rfl, -⟩ := h
    cases (List.getLast?_concat (l := '/' :: '/' :: body)).symm.trans hlast
  | blank => exact absurd (h.2 _ hmem) (by decide)
  | number =>
    rcases h with ⟨whole, fraction, rfl, -, hall⟩ | ⟨-, hall⟩
    · rcases List.mem_append.1 hmem with hmem | hmem
      · exact absurd (hall _ (List.mem_append_left _ hmem)) (by decide)
      · rcases List.mem_cons.1 hmem with hpoint | hmem
        · exact absurd hpoint (by decide)
        · exact absurd (hall _ (List.mem_append_right _ hmem)) (by decide)
    · exact absurd (hall _ hmem) (by decide)
  | string =>
    obtain ⟨value, rfl⟩ := h
    cases (List.getLast?_concat (l := '"' :: doubled value)).symm.trans hlast
  | boolean =>
    obtain ⟨b, rfl⟩ := h
    cases b <;> revert hlast <;> decide
  | word spelling =>
    obtain rfl : text = spelling.toList := h
    have hall : ∀ spelling ∈ Stage.keywords ++ st.operators,
        spelling.toList.getLast? = some '\x7d' → spelling = "\x7d" := by
      cases st <;> decide
    obtain rfl := hall spelling (word_mem hkind) hlast
    exact ⟨rfl, rfl⟩
  | name =>
    obtain _ | ⟨c, rest⟩ := text
    · cases hlast
    · simp only [LexClass.Form, isName, Bool.and_eq_true, List.all_eq_true] at h
      rcases List.mem_cons.1 hmem with rfl | hmem
      · exact absurd h.1 (by decide)
      · exact absurd (h.2 _ hmem) (by decide)

namespace Cuts

variable {st : Stage} {position : Nat} {cs : List Char}

/-- The lexemes behind some of the lexemes of a text. -/
theorem suffix {xs ys : List Lexeme} (h : Cuts st position cs (xs ++ ys)) :
    ∃ position', Cuts st position' (ys.map text).flatten ys := by
  induction xs generalizing position cs with
  | nil =>
    refine ⟨position, ?_⟩
    rw [List.nil_append] at h
    rwa [h.flatten_text]
  | cons x xs ih =>
    cases h with
    | cons _ hrest => exact ih hrest

/-- The last lexeme of a text that ends in a closing brace is the brace. -/
theorem exists_brace {xs : List Lexeme} (h : Cuts st position (cs ++ ['\x7d']) xs) :
    ∃ ys q, xs = ys ++ [⟨.word "\x7d", ['\x7d'], q⟩] ∧ (ys.map text).flatten = cs := by
  have hflatten := h.flatten_text
  obtain rfl | ⟨ys, z, rfl⟩ := xs.eq_nil_or_concat'
  · simp at hflatten
  · obtain ⟨rest, hclass⟩ := h.classified (List.mem_append_right ys (List.mem_singleton_self z))
    simp only [List.map_append, List.map_cons, List.map_nil,
      List.flatten_append, List.flatten_cons, List.flatten_nil, List.append_nil] at hflatten
    have hlast : z.text.getLast? = some '\x7d' := by
      have hwhole := congrArg List.getLast? hflatten
      rw [List.getLast?_concat, List.getLast?_append_of_ne_nil _ (ne_nil_of_classify hclass)]
        at hwhole
      exact hwhole
    obtain ⟨kind, ztext, q⟩ := z
    obtain ⟨rfl, rfl⟩ := eq_brace_of_form (classify_sound hclass).1 (form_of_classify hclass) hlast
    exact ⟨ys, q, rfl, List.append_cancel_right hflatten⟩

/-- A slash before a text without line ends is a lexeme. -/
theorem exists_slash {xs : List Lexeme} (h : Cuts st position ('/' :: cs) xs)
    (hline : '\n' ∉ cs) : ∃ ys, xs = ⟨.word "/", ['/'], position⟩ :: ys ∧
      Cuts st (position + 1) cs ys := by
  have hcomment : commentReach ('/' :: cs) = 0 := commentReach_of_not_mem (by simpa using hline)
  have hslash := classify_sign st (by simp [seamSigns]) hcomment
  generalize hcs : '/' :: cs = ds at h
  cases h with
  | nil => cases hcs
  | @cons _ kind text rest ys hclass hrest =>
    rw [← hcs, hslash] at hclass
    obtain ⟨rfl, hlength⟩ := Prod.mk.inj (Option.some.inj hclass)
    obtain ⟨c, rfl⟩ := List.length_eq_one_iff.1 hlength.symm
    cases hcs
    exact ⟨ys, rfl, hrest⟩

/-- Where no two slashes stand in a row among the tokens, no comment is left open. -/
theorem finished (hst : st.has .blocks = true) {ys : List Lexeme} {q : Nat}
    (h : Cuts st position cs (ys ++ [⟨.word "\x7d", ['\x7d'], q⟩])) {ts more : List Token}
    (hts : (ys.filter (kept st)).mapM (token st) = .ok ts) (hapart : Rule.Apart (ts ++ more)) :
    ∀ xs, xs <:+ ys → Finished (xs.map text).flatten := by
  rintro xs ⟨before, rfl⟩ ⟨chars, hchars⟩
  by_contra hline
  rw [List.append_assoc] at h
  obtain ⟨position₁, h₁⟩ := h.suffix
  simp only [List.map_append, List.flatten_append, ← hchars, List.cons_append, List.nil_append,
    List.map_cons, List.map_nil, List.flatten_cons, List.flatten_nil, List.append_nil] at h₁
  have hlater : '\n' ∉ chars ++ ['\x7d'] := by
    rw [← hchars] at hline
    simpa using hline
  -- both slashes are lexemes by themselves, and none of them is the brace at the end
  obtain ⟨xs₁, hxs₁, h₂⟩ := h₁.exists_slash (by simpa using hlater)
  obtain ⟨xs₂, rfl, -⟩ := h₂.exists_slash hlater
  obtain ⟨later, rfl⟩ : ∃ later, xs = ⟨.word "/", ['/'], position₁⟩ ::
      ⟨.word "/", ['/'], position₁ + 1⟩ :: later := by
    match xs, hxs₁ with
    | [], hxs₁ | [_], hxs₁ => simp at hxs₁
    | x :: y :: later, hxs₁ =>
      obtain ⟨rfl, htail⟩ := List.cons.inj hxs₁
      obtain ⟨rfl, -⟩ := List.cons.inj htail
      exact ⟨later, rfl⟩
  have hkept : ∀ p, kept st ⟨.word "/", ['/'], p⟩ = true := fun _ => rfl
  rw [List.filter_append, List.filter_cons_of_pos (hkept _), List.filter_cons_of_pos (hkept _),
    List.mapM_append, List.mapM_cons, List.mapM_cons, token_word hst, token_word hst] at hts
  cases hbefore : (before.filter (kept st)).mapM (token st) with
  | error e =>
    rw [hbefore] at hts
    cases hts
  | ok us =>
    cases hbehind : (later.filter (kept st)).mapM (token st) with
    | error e =>
      rw [hbefore, hbehind] at hts
      cases hts
    | ok vs =>
      rw [hbefore, hbehind] at hts
      cases hts
      rw [List.append_assoc] at hapart
      obtain ⟨hstarts, -⟩ := hapart.right
      obtain ⟨t, ht, hne⟩ := hstarts rfl
      cases ht
      exact hne rfl

end Cuts

end Lexeme

/-! ## Statements around a seam -/

namespace Rule

open Token (headTag Is)

/-- The closing brace of a block is at the head of these tokens. -/
def Closing (ts : List Token) : Prop :=
  ∃ t more, ts = t :: more ∧ Is "\x7d" t

/-- The tokens hold the statements `ss` with semicolons between them and anywhere around, up to
the closing brace at the head of `rest`. -/
inductive Sequence (st : Stage) : List Token → List Tree → List Token → Prop
  | done {t : Token} {ts : List Token} : Is "\x7d" t → Sequence st (t :: ts) [] (t :: ts)
  | semicolon {t : Token} {ts rest : List Token} {ss : List Tree} :
      Is ";" t → Sequence st ts ss rest → Sequence st (t :: ts) ss rest
  | cons {ts mid rest : List Token} {s : Tree} {ss : List Tree} : Stops ends ts →
      statement.read st ts = .ok (s, mid) → (∃ tag ∈ ends, headTag mid = .ok (.text tag)) →
      Sequence st mid ss rest → Sequence st ts (s :: ss) rest

namespace Sequence

variable {st : Stage} {ts rest : List Token} {ss : List Tree}

/-- Behind a sequence stands the closing brace. -/
theorem closing (h : Sequence st ts ss rest) : Closing rest := by
  induction h with
  | done ht => exact ⟨_, _, rfl, ht⟩
  | semicolon _ _ ih => exact ih
  | cons _ _ _ _ ih => exact ih

theorem exists_append (h : Sequence st ts ss rest) : ∃ us, ts = us ++ rest := by
  induction h with
  | done => exact ⟨[], rfl⟩
  | semicolon _ _ ih =>
    obtain ⟨us, rfl⟩ := ih
    exact ⟨_ :: us, rfl⟩
  | cons _ hs _ _ ih =>
    obtain ⟨us, rfl⟩ := ih
    obtain ⟨vs, rfl, -⟩ := (read_solid st .statement).toLocal _ _ hs
    exact ⟨vs ++ us, by simp⟩

/-- **Statements may go on where a block ends**: behind a semicolon instead of the brace. -/
theorem join {close semi : Token} {us tail behind rest' : List Token} {ss' : List Tree}
    (h : Sequence st ts ss (close :: tail)) (hts : ts = us ++ close :: tail)
    (hclose : Is "\x7d" close) (hsemi : Is ";" semi) (h' : Sequence st behind ss' rest') :
    Sequence st (us ++ semi :: behind) (ss ++ ss') rest' := by
  generalize hrest : close :: tail = rest at h
  induction h generalizing us with
  | @done t more ht =>
    obtain rfl : us = [] := List.self_eq_append_left.1 (hrest ▸ hts)
    exact .semicolon hsemi h'
  | @semicolon t more _ _ ht _ ih =>
    cases us with
    | nil =>
      cases hts
      exact absurd (ht.symm.trans hclose) (by simp)
    | cons u us =>
      cases hts
      exact .semicolon ht (ih rfl hrest)
  | @cons ts mid _ s ss hstops hs hend hmore ih =>
    subst hrest
    -- the statement is read again: behind it stands the same, or the semicolon for the brace
    obtain ⟨vs, rfl⟩ := hmore.exists_append
    obtain ⟨ws, hws, hstarts, -, hagain⟩ := (read_solid st .statement).split hs
    obtain rfl : us = ws ++ vs := by
      rw [hts, ← List.append_assoc] at hws
      exact List.append_cancel_right hws
    have hended : Quits st .statement (semi :: behind) :=
      Quits.of_ended (.of_mem (by decide) hsemi behind) _
    have hahead : SameAhead (Quits st .statement) (vs ++ close :: tail) (vs ++ semi :: behind) :=
      SameAhead.append (.calm hended) vs
    rw [List.append_assoc]
    refine .cons ?_ (hagain _ hahead) ?_ (ih rfl rfl)
    · obtain ⟨v, hv, hne⟩ := hstops
      rw [hts, List.append_assoc] at hv
      exact ⟨v, (hstarts.headTag _ _).trans hv, hne⟩
    · cases vs with
      | nil => exact ⟨";", by decide, hsemi⟩
      | cons v vs => exact hend

end Sequence

theorem skipSemicolons_stops (ts : List Token) : Yields (Stops [";"]) (skipSemicolons ts) := by
  induction ts with
  | nil => exact .error _
  | cons t ts ih =>
    intro rest hrest
    rcases semicolon_or_stops hrest with ht | hstops
    · exact ih rest ((skipSemicolons_of_is ht ts).symm.trans hrest)
    · cases (skipSemicolons_of_stops hstops).symm.trans hrest
      exact hstops

namespace Sequence

variable {st : Stage} {ts rest : List Token} {ss : List Tree}

/-- Semicolons in front of a sequence belong to it. -/
theorem of_skip {mid : List Token} (hskip : skipSemicolons ts = .ok mid)
    (h : Sequence st mid ss rest) : Sequence st ts ss rest := by
  induction ts with
  | nil => cases hskip
  | cons t ts ih =>
    rcases semicolon_or_stops hskip with ht | hstops
    · exact .semicolon ht (ih ((skipSemicolons_of_is ht ts).symm.trans hskip))
    · cases (skipSemicolons_of_stops hstops).symm.trans hskip
      exact h

/-- A statement starts behind the semicolons, if no brace does. -/
theorem stops_of_skip {mid : List Token} (hskip : skipSemicolons ts = .ok mid) {b : Bool}
    (hb : nextIs "\x7d" mid = .ok b) (hbrace : ¬ b = true) : Stops ends mid := by
  obtain ⟨v, hv, hne⟩ := skipSemicolons_stops ts mid hskip
  refine ⟨v, hv, ?_⟩
  have hfalse : v.isText "\x7d" = b := Except.ok.inj ((nextIs_of_headTag hv _).symm.trans hb)
  simp only [ends, List.forall_mem_cons]
  refine ⟨hne ";" (by simp), ?_, by simp⟩
  rintro rfl
  exact hbrace (hfalse ▸ rfl)

/-- Where a block goes on or is over, a semicolon or the brace comes next. -/
theorem moreStatements_head {rule : Rule → List Token → Reading} : ∀ (n : Nat) (ts : List Token),
    Yields (fun p => Closing p.2 → ∃ tag ∈ ends, headTag ts = .ok (.text tag))
      (moreStatements rule n ts)
  | 0, _ => .error _
  | n + 1, ts => by
    unfold moreStatements
    refine .bind fun b hb => .ite (fun hsemi _ _ _ => ?_) fun _ => .pure ?_
    · exact ⟨";", by decide, headTag_of_nextIs hb hsemi⟩
    · rintro ⟨t, more, rfl, ht⟩
      exact ⟨"\x7d", by decide, ht⟩

/-- What the parser reads as the further statements of a block. -/
theorem of_moreStatements : ∀ (n : Nat) (ts : List Token),
    Yields (fun p => Closing p.2 → Sequence st ts p.1 p.2) (moreStatements (Rule.read st) n ts)
  | 0, _ => .error _
  | n + 1, ts => by
    unfold moreStatements
    refine .bind fun b hb => .ite (fun _ => ?_) fun _ => .pure ?_
    · refine .bind fun mid hmid => .bind fun b hb => .ite (fun _ p hp hclose => ?_) fun hbrace => ?_
      · exact .of_skip hmid (of_moreStatements n mid p hp hclose)
      · refine .bind fun p hs => .bind fun _ _ => .bind fun _ _ => ?_
        refine .ite (fun _ => .error _) fun _ => .bind fun q hq => .pure fun hclose => ?_
        have hmore := of_moreStatements n p.2 q hq hclose
        have hend := moreStatements_head n p.2 q hq hclose
        exact .of_skip hmid (.cons (stops_of_skip hmid hb hbrace) hs hend hmore)
    · rintro ⟨t, more, rfl, ht⟩
      exact .done ht

/-- What the parser reads up to a closing brace is a sequence. -/
theorem of_statements (n : Nat) (ts : List Token) :
    Yields (fun p => Closing p.2 → Sequence st ts p.1 p.2) (statements (Rule.read st) n ts) := by
  refine .bind fun mid hmid => .bind fun b hb => .ite (fun _ => .pure ?_) fun hbrace => ?_
  · rintro ⟨t, more, rfl, ht⟩
    exact .of_skip hmid (.done ht)
  · refine .bind fun p hs => .bind fun q hq => .pure fun hclose => ?_
    have hmore := of_moreStatements n p.2 q hq hclose
    have hend := moreStatements_head n p.2 q hq hclose
    exact .of_skip hmid (.cons (stops_of_skip hmid hb hbrace) hs hend hmore)

/-- Behind a semicolon the parser reads what it reads at the head of a block. -/
theorem moreStatements_semicolon {rule : Rule → List Token → Reading} (n : Nat) {t : Token}
    (ht : Is ";" t) (ts : List Token) :
    Yields (fun p => Closing p.2 → moreStatements rule (n + 2) (t :: ts) = .ok p)
      (statements rule (n + 1) ts) := by
  -- one round of the loop, with the semicolon skipped
  have hround : moreStatements rule (n + 2) (t :: ts) = (do
      let ts ← skipSemicolons ts
      if ← nextIs "\x7d" ts then moreStatements rule (n + 1) ts
      else
        let p ← rule .statement ts
        if !(← nextIs ";" p.2) && !(← nextIs "\x7d" p.2) then throw .violation
        let q ← moreStatements rule (n + 1) p.2
        return (p.1 :: q.1, q.2)) := by
    rw [moreStatements]
    simp only [nextIs_of_is ht, skipSemicolons_of_is ht]
    rfl
  rw [hround]
  refine .bind fun mid hmid => .bind fun b hb => .ite (fun hbrace => .pure ?_) fun hbrace => ?_
  · rintro ⟨t, more, rfl, ht⟩
    simp [hmid, nextIs_of_is ht, moreStatements, nextIs_of_is_ne ht]
  · refine .bind fun p hs => .bind fun q hq => .pure fun hclose => ?_
    -- the loop has gone on behind the statement, so that a semicolon or a brace is there
    obtain ⟨tag, htag, hhead⟩ := moreStatements_head _ p.2 q hq hclose
    simp only [ends, List.mem_cons, List.not_mem_nil, or_false] at htag
    rcases htag with rfl | rfl <;>
      simp [hmid, hb, hbrace, hs, nextIs_of_headTag hhead, hq, Value.isText]

/-- **A sequence is read with enough budget**, at the head of a block and behind a statement of
it. -/
theorem to_statements (h : Sequence st ts ss rest) :
    (∃ n, ∀ k, n ≤ k → statements (Rule.read st) k ts = .ok (ss, rest)) ∧
    ((∃ tag ∈ ends, headTag ts = .ok (.text tag)) →
      ∃ n, ∀ k, n ≤ k → moreStatements (Rule.read st) k ts = .ok (ss, rest)) := by
  induction h with
  | @done t more ht =>
    have hskip : skipSemicolons (t :: more) = .ok (t :: more) :=
      skipSemicolons_of_stops (.of_is ht (by decide))
    refine ⟨⟨0, fun k _ => ?_⟩, fun _ => ⟨1, fun k hk => ?_⟩⟩
    · simp [statements, hskip, nextIs_of_is ht]
    · obtain ⟨k, rfl⟩ := Nat.exists_eq_add_of_le' hk
      simp [moreStatements, nextIs_of_is_ne ht]
  | @semicolon t ts rest ss ht hmore ih =>
    obtain ⟨⟨n, hn⟩, -⟩ := ih
    refine ⟨⟨n, fun k hk => ?_⟩, fun _ => ⟨n + 2, fun k hk => ?_⟩⟩
    · rw [statements, skipSemicolons_of_is ht]
      exact hn k hk
    · obtain ⟨k, rfl⟩ := Nat.exists_eq_add_of_le' (Nat.le_trans (Nat.le_add_left 2 n) hk)
      exact moreStatements_semicolon k ht ts _ (hn (k + 1) (by omega)) hmore.closing
  | @cons ts mid rest s ss hstops hs hend hmore ih =>
    obtain ⟨n, hn⟩ := ih.2 hend
    refine ⟨⟨n, fun k hk => ?_⟩, ?_⟩
    · have hskip := skipSemicolons_of_stops (hstops.mono (by simp [ends]))
      have hbrace : nextIs "\x7d" ts = .ok false := hstops.nextIs (by decide)
      simp [statements, hskip, hbrace, hs, hn k hk]
    -- a statement does not start as the two signs do that end one
    · rintro ⟨tag, htag, hhead⟩
      obtain ⟨v, hv, hne⟩ := hstops
      exact absurd (Except.ok.inj (hv.symm.trans hhead)) (hne tag htag)

end Sequence

/-- **A block is its statements between braces.** -/
theorem read_block_iff {st : Stage} {t : Token} (ht : Is "\x7b" t) {ts rest : List Token}
    {tree : Tree} :
    blockStatement.read st (t :: ts) = .ok (tree, rest) ↔
      ∃ ss close, tree = Tree.block ss ∧ Is "\x7d" close ∧ Sequence st ts ss (close :: rest) := by
  have hblock : ∀ n, readBlock (Rule.read st) n (t :: ts) = do
      let p ← statements (Rule.read st) n ts
      let rest ← skip "\x7d" p.2
      return (Tree.block p.1, rest) := by
    intro n
    rw [readBlock_eq, skip_of_is ht]
    rfl
  constructor
  · have hyields : ∀ n, Yields (fun p => ∃ ss close, p.1 = Tree.block ss ∧ Is "\x7d" close ∧
        Sequence st ts ss (close :: p.2)) (readBlock (Rule.read st) n (t :: ts)) := by
      intro n
      rw [hblock]
      refine .bind fun p hp => .bind fun rest hrest => .pure ?_
      obtain ⟨close, hmid, hclose⟩ := skip_token _ _ rest hrest
      have hsequence := Sequence.of_statements n ts p hp ⟨close, rest, hmid, hclose⟩
      exact ⟨p.1, close, rfl, hclose, hmid ▸ hsequence⟩
    intro h
    rw [read_eq] at h
    exact hyields _ _ h
  · rintro ⟨ss, close, rfl, hclose, h⟩
    obtain ⟨⟨n, hn⟩, -⟩ := h.to_statements
    -- the parser's own budget is enough, so a larger one gives the same
    have hread := (read_concludes st .blockStatement (t :: ts)).ne_exhausted
    rw [read_eq] at hread ⊢
    have hlarger := readBlock_extends (fun r ts => .refl (Rule.read st r ts))
      (Nat.le_max_right n (budget (t :: ts).length)) hread
    refine hlarger.symm.trans ?_
    rw [hblock, hn _ (Nat.le_max_left _ _)]
    simp [skip_of_is hclose]

theorem read_statement_of_brace {st : Stage} (hst : st.has .blocks = true) {t : Token}
    (ht : Is "\x7b" t) (ts : List Token) :
    statement.read st (t :: ts) = blockStatement.read st (t :: ts) := by
  rw [read_eq]
  simp [step, readStatement, headTag_of_is ht, Value.isText, hst]

end Rule

/-! ## Wrapped texts -/

/-- Moving a token changes nothing but its place. -/
theorem Token.alike_moved (distance : Nat) (t : Token) : Alike t (t.moved distance) := by
  unfold Token.moved
  split
  · rename_i fields
    split
    · rename_i position hposition
      refine ⟨?_, ?_, ?_⟩
      · simp [Value.field, Fields.get?_set_of_ne]
      · simp [Value.field, Fields.get?_set_of_ne]
      · simp [Value.field, Fields.get?_set_self, hposition, Concur]
    · exact .refl _
  · exact .refl _

namespace Lexeme

/-- Tails without a line end leave a comment open, if it is, and those behind which all comments
are finished do not matter. -/
theorem commentReach_tails {cs tail tail' : List Char} (htail : Halted tail)
    (htail' : Halted tail') (h : Finished cs ∨ '\n' ∉ tail ∧ '\n' ∉ tail') :
    commentReach (cs ++ tail') = commentReach (cs ++ tail) := by
  by_cases hfinished : Finished cs
  · exact commentReach_seam hfinished htail htail'
  · have hline : '\n' ∉ cs := fun hline => hfinished fun _ => hline
    obtain ⟨hnone, hnone'⟩ := h.resolve_left hfinished
    rw [commentReach_of_not_mem (by simp [hline, hnone']),
      commentReach_of_not_mem (by simp [hline, hnone])]

/-- **The tokens of a text in braces**, and of the text with something else in place of the
closing brace. What stands there does not matter for the text, if no two slashes stand in a row
among its tokens; else it may not end a comment that is open in the text. -/
theorem tokensAt_wrapped {st : Stage} (hst : st.has .blocks = true) {cs : List Char}
    {ts : List Token} (h : tokensAt st 0 ('\x7b' :: (cs ++ ['\x7d'])) = .ok ts) :
    ∃ us q, ts = Token.make "\x7b" none 0 :: us ++ [Token.make "\x7d" none q] ∧
      tokensAt st 1 (cs ++ ['\x7d']) = .ok (us ++ [Token.make "\x7d" none q]) ∧
      ∀ tail, Halted tail → (Rule.Apart ts ∨ '\n' ∉ tail) →
        tokensAt st 0 ('\x7b' :: (cs ++ tail)) =
          (tokensAt st (1 + cs.length) tail).map (Token.make "\x7b" none 0 :: us ++ ·) := by
  obtain ⟨xs, hcuts, hts⟩ := exists_cuts_of_tokensAt h
  rw [← List.cons_append] at hcuts
  obtain ⟨ys, q, rfl, hflatten⟩ := hcuts.exists_brace
  have hkept : [Lexeme.mk (.word "\x7d") ['\x7d'] q].filter (kept st) =
      [⟨.word "\x7d", ['\x7d'], q⟩] := rfl
  rw [List.filter_append, hkept, List.mapM_append, List.mapM_cons, token_word hst] at hts
  cases hvs : (ys.filter (kept st)).mapM (token st) with
  | error e =>
    rw [hvs] at hts
    cases hts
  | ok vs =>
    rw [hvs] at hts
    cases hts
    have hseam : ∀ tail, Halted tail → (Rule.Apart (vs ++ [Token.make "\x7d" none q]) ∨
        '\n' ∉ tail) → tokensAt st 0 ('\x7b' :: (cs ++ tail)) =
          (tokensAt st (1 + cs.length) tail).map (vs ++ ·) := by
      intro tail htail hopen
      have hhalted : Halted ['\x7d'] := halted_cons (by decide) []
      have hcomments : ∀ xs, xs <:+ ys → commentReach ((xs.map text).flatten ++ tail) =
          commentReach ((xs.map text).flatten ++ ['\x7d']) := by
        intro xs hxs
        refine commentReach_tails hhalted htail (hopen.imp (fun hapart => ?_) fun hline => ?_)
        · exact hcuts.finished hst hvs hapart xs hxs
        · exact ⟨by decide, hline⟩
      rw [← hflatten] at hcuts
      have htails := hcuts.tokensAt_tails hhalted htail hcomments hvs
      rw [hflatten, List.length_cons, Nat.zero_add, Nat.add_comm] at htails
      exact htails
    -- the first token is the opening brace
    rw [tokensAt_sign hst (by decide) (by decide)] at h
    cases hlater : tokensAt st 1 (cs ++ ['\x7d']) with
    | error e =>
      rw [hlater] at h
      cases h
    | ok later =>
      rw [hlater] at h
      have hlist : Token.make "\x7b" none 0 :: later = vs ++ [Token.make "\x7d" none q] :=
        Except.ok.inj h
      obtain _ | ⟨v, us⟩ := vs
      · simp [Token.make] at hlist
      · obtain ⟨rfl, rfl⟩ := List.cons.inj hlist
        exact ⟨us, q, rfl, rfl, hseam⟩

end Lexeme

/-- Alike tokens hold the same statements. -/
theorem Rule.Sequence.alike {st : Stage} {ts ts' rest : List Token} {ss : List Tree}
    (h : Sequence st ts ss rest) (hts : Abreast ts ts') : ∃ rest', Sequence st ts' ss rest' := by
  induction h generalizing ts' with
  | done ht =>
    cases hts with
    | cons halike _ => exact ⟨_, .done (halike.tag.trans ht)⟩
  | semicolon ht _ ih =>
    cases hts with
    | cons halike hts =>
      obtain ⟨rest', hmore⟩ := ih hts
      exact ⟨rest', .semicolon (halike.tag.trans ht) hmore⟩
  | @cons ts mid _ s ss hstops hs hend _ ih =>
    -- reading does not look at positions, so that the statement is read from the other tokens too
    have hread := read_concurs st .statement hts
    rw [hs] at hread
    cases hs' : statement.read st ts' with
    | error e =>
      rw [hs'] at hread
      exact hread.elim
    | ok p =>
      rw [hs'] at hread
      obtain ⟨_, hmid⟩ := hread
      obtain ⟨rest', hmore⟩ := ih hmid
      obtain ⟨v, hv, hne⟩ := hstops
      obtain ⟨tag, htag, hhead⟩ := hend
      refine ⟨rest', .cons ⟨v, ?_, hne⟩ hs' ⟨tag, htag, ?_⟩ hmore⟩
      · exact (headTag_alike hts).trans hv
      · exact (headTag_alike hmid).trans hhead

end Stepwise
