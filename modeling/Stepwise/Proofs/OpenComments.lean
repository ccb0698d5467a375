import Stepwise.Proofs.Comments
import Stepwise.Proofs.Composition
import Stepwise.Proofs.Remainders

/-!
# Comments without a line end

A comment ends with its line, and the line end belongs to it. A session puts a text in braces, with
the closing brace right behind it. So a comment at the end of the text, where no line ends, is none:
its slashes are tokens, and what follows them is cut as a part of the program
(`comment_without_line_end`).

- `tokensAt_open`: the tokens of such a comment;
- `Rule.exists_block`: a program that starts with a brace is a block, and the rest is dropped;
- `parse_slashes`: behind a text that is a block up to its last token, two slashes are a fault;
- `parse_behind_block`: behind a block that is closed earlier, anything is dropped;
- `tree_open_comment`, `tree_closed_comment`, `tree_dropped_comment`: what becomes of the tree.
-/

namespace Stepwise

open Token (Is)

/-! ## Tokens -/

/-- Without a line end behind them two slashes are tokens, and so is what follows. -/
theorem Lexeme.tokensAt_open {st : Stage} (hst : st.has .blocks = true) {rest : String}
    (hline : '\n' ∉ rest.toList) (position : Nat) :
    tokensAt st position (' ' :: '/' :: '/' :: rest.toList) = (tokenize st rest).map fun vs =>
      Token.make "/" none (position + 1) :: Token.make "/" none (position + 2) ::
        vs.map (Token.moved (position + 3)) := by
  have hcomment : ∀ cs, '\n' ∉ cs → commentReach ('/' :: cs) = 0 :=
    fun cs hcs => commentReach_of_not_mem (by simpa using hcs)
  rw [tokensAt_space, tokensAt_uncommented hst (by decide) (hcomment _ (by simpa using hline)),
    tokensAt_uncommented hst (by decide) (hcomment _ hline), tokensAt_eq_moved]
  cases tokenize st rest <;> rfl

/-! ## Reading -/

section Reading

variable {st : Stage} (hst : st.has .blocks = true) {opening : Token}
  (hopening : Is "\x7b" opening)
include hst hopening

/-- **What starts with a brace is a block**, whatever follows. -/
theorem Rule.exists_block {xs : List Token} {t : Tree} (h : parse st (opening :: xs) = .ok t) :
    ∃ front ys, xs = front ++ ys ∧ Rule.Apart (opening :: front) ∧
      (Rule.Whole st (opening :: xs) t ↔ ys = []) ∧
      ∀ rest, blockStatement.read st (opening :: (front ++ rest)) = .ok (t, rest) := by
  have hstart : start st = .statement := if_pos (Stage.has_of_rank_le hst (by decide))
  obtain ⟨rest, hread⟩ := parse_eq_ok_iff_read.1 h
  obtain ⟨us, hus, ⟨u, hu, -⟩, htaken, -⟩ := (read_solid st _).split hread
  obtain ⟨ys, hlist, hrest⟩ := htaken.append_eq (.ending st) hus
  obtain rfl : rest = ys ++ [Token.ending] := hrest
  obtain ⟨front, rfl⟩ := List.head?_eq_some_iff.1 hu
  rw [List.cons_append] at hlist
  obtain ⟨rfl, rfl⟩ := List.cons.inj hlist
  refine ⟨front, ys, rfl, htaken.apart, ?_, ?_⟩
  · rw [Whole, hread]
    simp
  · rw [hstart, List.cons_append, List.append_assoc, read_statement_of_brace hst hopening] at hread
    exact read_block_again hread

theorem parse_of_block {xs rest : List Token} {t : Tree}
    (h : Rule.blockStatement.read st (opening :: (xs ++ [Token.ending])) = .ok (t, rest)) :
    parse st (opening :: xs) = .ok t := by
  rw [parse_eq_ok_iff (Stage.has_of_rank_le hst (by decide)), List.cons_append]
  exact ⟨rest, (Rule.read_statement_of_brace hst hopening _).trans h⟩

theorem Rule.Whole.block {xs : List Token} {t : Tree} (h : Rule.Whole st (opening :: xs) t) :
    Rule.blockStatement.read st (opening :: (xs ++ [Token.ending])) = .ok (t, [Token.ending]) := by
  have hstart : start st = .statement := if_pos (Stage.has_of_rank_le hst (by decide))
  rwa [Whole, hstart, List.cons_append, read_statement_of_brace hst hopening] at h

omit hst hopening in
/-- Of two ways to part a list, the first part of the one is in that of the other or beyond it. -/
theorem append_eq_cases {α : Type} {front ys us zs : List α} (h : us ++ zs = front ++ ys) :
    (∃ between, us = front ++ between) ∨ ∃ b bs, front = us ++ b :: bs ∧ zs = b :: bs ++ ys := by
  rcases List.append_eq_append_iff.1 h with ⟨bs, hfront, hzs⟩ | ⟨between, hus, -⟩
  · cases bs with
    | nil => exact .inl ⟨[], by simp [hfront]⟩
    | cons b bs => exact .inr ⟨b, bs, hfront, hzs⟩
  · exact .inl ⟨between, hus⟩

/-- **Two slashes in the place of the last brace are a fault.** They are not part of a block, and no
block ends before them. -/
theorem parse_slashes {us more : List Token} {close slash slash' : Token} {t : Tree}
    (hslash : Is "/" slash) (hslash' : Is "/" slash')
    (hwhole : Rule.Whole st (opening :: (us ++ [close])) t) :
    ∃ e, parse st (opening :: (us ++ slash :: slash' :: more)) = .error e := by
  cases hparse : parse st (opening :: (us ++ slash :: slash' :: more)) with
  | error e => exact ⟨e, rfl⟩
  | ok t' =>
    obtain ⟨front, ys, hlist, hapart, -, hread⟩ := Rule.exists_block hst hopening hparse
    rcases append_eq_cases hlist with ⟨between, rfl⟩ | ⟨b, bs, rfl, hbs⟩
    · -- the block would be closed before the last token there too
      have hread := hread (between ++ [close] ++ [Token.ending])
      have hblock := hwhole.block hst hopening
      rw [List.append_assoc, List.append_assoc, ← List.append_assoc between, hread] at hblock
      have hlength := congrArg List.length (Prod.mk.inj (Except.ok.inj hblock)).2
      simp at hlength
    · obtain ⟨rfl, hmore⟩ := List.cons.inj hbs
      have hslashes : Rule.Apart ((opening :: us) ++ slash :: bs) := hapart
      obtain ⟨u, hu, hne⟩ := hslashes.right.1 hslash
      obtain ⟨bs, rfl⟩ := List.head?_eq_some_iff.1 hu
      obtain ⟨rfl, -⟩ := List.cons.inj hmore
      exact absurd hslash' hne

/-- **Behind a block that is closed before the last token, anything is dropped.** -/
theorem parse_behind_block {us : List Token} {close : Token} {t : Tree}
    (h : parse st (opening :: (us ++ [close])) = .ok t)
    (hnot : ¬ Rule.Whole st (opening :: (us ++ [close])) t) (more : List Token) :
    parse st (opening :: (us ++ more)) = .ok t := by
  obtain ⟨front, ys, hlist, -, hwhole, hread⟩ := Rule.exists_block hst hopening h
  rcases append_eq_cases hlist with ⟨between, rfl⟩ | ⟨b, bs, -, hbs⟩
  · have hread := hread (between ++ more ++ [Token.ending])
    rw [← List.append_assoc, ← List.append_assoc] at hread
    exact parse_of_block hst hopening hread
  · -- the last token is read, so nothing is left
    have hnil : bs = [] ∧ ys = [] := by simpa using (List.cons.inj hbs).2.symm
    exact absurd (hwhole.2 hnil.2) hnot

end Reading

/-! ## Texts of a session -/

namespace Session

variable {st : Stage}

/-- Texts that have the same tree do the same. -/
theorem runs_of_tree {a b : String}
    (h : Program.tree st (wrap st a) = Program.tree st (wrap st b)) :
    Program.run st (wrap st a) = Program.run st (wrap st b) ∧ ofStage st a = ofStage st b := by
  have hrun : Program.run st (wrap st a) = Program.run st (wrap st b) := by
    rw [Program.run, Program.run, h]
  refine ⟨hrun, ?_⟩
  rw [ofStage, ofStage, hrun]

/-- A text without a tree changes nothing. -/
theorem ofStage_of_error {text : String} {e : Fault}
    (h : Program.tree st (wrap st text) = .error e) (m : Machine) :
    ofStage st text m = (.error e, m) := by
  simp only [ofStage, Program.run, h]
  rfl

section Comment

variable (hst : st.has .blocks = true) {code c : String} (hc : '\n' ∉ c.toList)
include hst hc

/-- The tokens of a text in braces, with a comment behind it that has no line end, and with one
that has. -/
theorem tokenize_commented_wrap {ts : List Token} (h : tokenize st (wrap st code) = .ok ts) :
    ∃ us q, ts = Token.make "\x7b" none 0 :: (us ++ [Token.make "\x7d" none q]) ∧
      (∀ e, tokenize st (c ++ "\x7d") = .error e →
        tokenize st (wrap st (code ++ " //" ++ c)) = .error e) ∧
      (∀ vs, tokenize st (c ++ "\x7d") = .ok vs → ∃ slash slash' more,
        Is "/" slash ∧ Is "/" slash' ∧ tokenize st (wrap st (code ++ " //" ++ c)) =
          .ok (Token.make "\x7b" none 0 :: (us ++ slash :: slash' :: more))) ∧
      (Rule.Apart ts → ∃ q', tokenize st (wrap st (code ++ " //" ++ c ++ "\n")) =
        .ok (Token.make "\x7b" none 0 :: (us ++ [Token.make "\x7d" none q']))) := by
  have htokens : Lexeme.tokensAt st 0 ('\x7b' :: (code.toList ++ ['\x7d'])) = .ok ts := by
    rw [← toList_wrap hst]
    exact h
  obtain ⟨us, q, rfl, -, hseam⟩ := Lexeme.tokensAt_wrapped hst htokens
  have hspace : ∀ rest, Lexeme.Halted (' ' :: rest) := Lexeme.halted_cons (by decide)
  have hopen := hseam _ (hspace ('/' :: '/' :: (c ++ "\x7d").toList)) (.inr (by simp [hc]))
  have hchars : (wrap st (code ++ " //" ++ c)).toList =
      '\x7b' :: (code.toList ++ ' ' :: '/' :: '/' :: (c ++ "\x7d").toList) := by
    simp [toList_wrap hst]
  rw [← hchars, Lexeme.tokensAt_open hst (by simp [hc])] at hopen
  refine ⟨us, q, rfl, fun e he => ?_, fun vs hvs => ?_, fun hapart => ?_⟩
  · rw [he] at hopen
    exact hopen
  · rw [hvs] at hopen
    exact ⟨_, _, _, (Token.fields_make "/" none _).1, (Token.fields_make "/" none _).1, hopen⟩
  · have hgap : Lexeme.isGap ("//" ++ c ++ "\n").toList = true := by
      rw [Lexeme.isGap, Bool.or_eq_true, Lexeme.isComment_iff]
      exact .inr ⟨c.toList, by simp, hc⟩
    have hchars : (wrap st (code ++ " //" ++ c ++ "\n")).toList =
        '\x7b' :: (code.toList ++ ' ' :: (("//" ++ c ++ "\n").toList ++ ['\x7d'])) := by
      simp [toList_wrap hst]
    have hclosed := hseam _ (hspace (("//" ++ c ++ "\n").toList ++ ['\x7d'])) (.inl hapart)
    rw [← hchars, Lexeme.tokensAt_space, Lexeme.tokensAt_gap hst hgap,
      Lexeme.tokensAt_sign hst (by decide) (by decide)] at hclosed
    exact ⟨_, hclosed⟩

section Trees

variable {ts : List Token} {t : Tree} (hts : tokenize st (wrap st code) = .ok ts)
include hts

/-- A comment that cannot be cut with the brace behind it makes the text fail. -/
theorem tree_uncut_comment {e : Fault} (he : tokenize st (c ++ "\x7d") = .error e) :
    Program.tree st (wrap st (code ++ " //" ++ c)) = .error e := by
  obtain ⟨_, _, -, hfault, -, -⟩ := tokenize_commented_wrap hst hc hts
  rw [Program.tree, hfault e he]
  rfl

/-- Where the brace behind the text closes the block, a comment without a line end is a fault. -/
theorem tree_open_comment (hwhole : Rule.Whole st ts t) :
    ∃ e, Program.tree st (wrap st (code ++ " //" ++ c)) = .error e := by
  cases hvs : tokenize st (c ++ "\x7d") with
  | error e => exact ⟨e, tree_uncut_comment hst hc hts hvs⟩
  | ok vs =>
    obtain ⟨us, q, rfl, -, hopen, -⟩ := tokenize_commented_wrap hst hc hts
    obtain ⟨slash, slash', more, hslash, hslash', htokens⟩ := hopen vs hvs
    rw [Program.tree_eq_parse htokens]
    exact parse_slashes hst (Token.fields_make _ _ _).1 hslash hslash' hwhole

/-- With a line end it is no part of the tree. -/
theorem tree_closed_comment (hwhole : Rule.Whole st ts t) :
    Program.tree st (wrap st (code ++ " //" ++ c ++ "\n")) = .ok t := by
  obtain ⟨us, q, rfl, -, -, hclosed⟩ := tokenize_commented_wrap hst hc hts
  obtain ⟨q', htokens⟩ := hclosed hwhole.taken.apart
  have halike : Rule.Abreast (Token.make "\x7b" none 0 :: (us ++ [Token.make "\x7d" none q]))
      (Token.make "\x7b" none 0 :: (us ++ [Token.make "\x7d" none q'])) :=
    .cons (.refl _) (List.rel_append (List.forall₂_same.2 fun _ _ => .refl _)
      (.cons (.make _ _ _ _) .nil))
  rw [Program.tree_eq_parse htokens]
  exact parse_alike halike (parse_eq_ok_iff_read.2 ⟨_, hwhole⟩)

/-- Where a brace of the text closes the block, the comment is dropped. -/
theorem tree_dropped_comment (hparse : parse st ts = .ok t) (hnot : ¬ Rule.Whole st ts t)
    {vs : List Token} (hvs : tokenize st (c ++ "\x7d") = .ok vs) :
    Program.tree st (wrap st (code ++ " //" ++ c)) = .ok t := by
  obtain ⟨us, q, rfl, -, hopen, -⟩ := tokenize_commented_wrap hst hc hts
  obtain ⟨slash, slash', more, -, -, htokens⟩ := hopen vs hvs
  rw [Program.tree_eq_parse htokens]
  exact parse_behind_block hst (Token.fields_make _ _ _).1 hparse hnot _

end Trees

/-- **A comment at the end of a text needs its line end.** From `blocks` on, let a session run a
text without a fault. If the closing brace that the session puts behind the text is the one that
closes the block, then with a comment at the end that has no line end the text has no tree: whatever
the comment says, on every machine there is a fault and nothing else happens. With a line end
behind the comment the session does what it does without it. If the block is closed by a brace of
the text, so that the rest of the text is dropped, then the comment is dropped with it, as long as
it can be cut into tokens together with the brace behind it. -/
theorem comment_without_line_end {m m' : Machine} (h : ofStage st code m = (.ok (), m')) :
    ∃ ts t, tokenize st (wrap st code) = .ok ts ∧ parse st ts = .ok t ∧
      (Rule.Whole st ts t →
        (∃ e, Program.tree st (wrap st (code ++ " //" ++ c)) = .error e ∧
          ∀ m, ofStage st (code ++ " //" ++ c) m = (.error e, m)) ∧
        Program.run st (wrap st (code ++ " //" ++ c ++ "\n")) = Program.run st (wrap st code) ∧
        ofStage st (code ++ " //" ++ c ++ "\n") = ofStage st code) ∧
      (¬ Rule.Whole st ts t →
        (∀ vs, tokenize st (c ++ "\x7d") = .ok vs →
          Program.run st (wrap st (code ++ " //" ++ c)) = Program.run st (wrap st code) ∧
          ofStage st (code ++ " //" ++ c) = ofStage st code) ∧
        ∀ e, tokenize st (c ++ "\x7d") = .error e →
          ∀ m, ofStage st (code ++ " //" ++ c) m = (.error e, m)) := by
  cases htree : Program.tree st (wrap st code) with
  | error e =>
    rw [ofStage_of_error htree] at h
    cases h
  | ok t =>
    obtain ⟨ts, hts, hparse⟩ := Program.exists_tokens htree
    refine ⟨ts, t, hts, hparse, fun hwhole => ⟨?_, ?_⟩, fun hnot => ⟨fun vs hvs => ?_, ?_⟩⟩
    · obtain ⟨e, he⟩ := tree_open_comment hst hc hts hwhole
      exact ⟨e, he, ofStage_of_error he⟩
    · exact runs_of_tree ((tree_closed_comment hst hc hts hwhole).trans htree.symm)
    · exact runs_of_tree ((tree_dropped_comment hst hc hts hparse hnot hvs).trans htree.symm)
    · exact fun e he => ofStage_of_error (tree_uncut_comment hst hc hts he)

end Comment

/-- The tree of `{x=1}`. -/
def assigning : Tree :=
  Tree.block [Tree.assign .blocks (Tree.leaf .blocks "<identifier>" (.text "x"))
    (Tree.leaf .blocks "<number>" (.int 1))]

theorem ofStage_assigning :
    ofStage .blocks "x=1" ⟨.record [], ""⟩ = (.ok (), ⟨.record [("x", .int 1)], ""⟩) := by
  have htree : Program.tree .blocks (wrap .blocks "x=1") = .ok assigning := rfl
  unfold ofStage Program.run
  rw [htree]
  rfl

/-- The text `x=1` with a comment behind it. -/
theorem comment_without_line_end_of_assigning :
    ofStage .blocks "x=1" ⟨.record [], ""⟩ = (.ok (), ⟨.record [("x", .int 1)], ""⟩) ∧
    '\n' ∉ "one".toList ∧
    (∃ e, ∀ m, ofStage .blocks ("x=1" ++ " //" ++ "one") m = (.error e, m)) ∧
    ofStage .blocks ("x=1" ++ " //" ++ "one" ++ "\n") = ofStage .blocks "x=1" := by
  have hstage : Stage.has .blocks .blocks = true := rfl
  have hline : '\n' ∉ "one".toList := by decide
  obtain ⟨ts, t, hts, hparse, hwhole, -⟩ := comment_without_line_end hstage hline ofStage_assigning
  have htokens : tokenize .blocks (wrap .blocks "x=1") = .ok [Token.make "\x7b" none 0,
      Token.make "<identifier>" (some (.text "x")) 1, Token.make "=" none 2,
      Token.make "<number>" (some (.int 1)) 3, Token.make "\x7d" none 4] := rfl
  obtain rfl := Except.ok.inj (htokens.symm.trans hts)
  obtain rfl : assigning = t := Except.ok.inj hparse
  obtain ⟨⟨e, -, hfails⟩, -, hsame⟩ := hwhole rfl
  exact ⟨ofStage_assigning, hline, ⟨e, hfails⟩, hsame⟩

/-- The second slash of the comment stands where an operand should. -/
theorem comment_breaks_text :
    ofStage .blocks "x=1" ⟨.record [], ""⟩ = (.ok (), ⟨.record [("x", .int 1)], ""⟩) ∧
    ofStage .blocks ("x=1" ++ " //" ++ "c") ⟨.record [], ""⟩ =
      (.error (.unexpected (Token.make "/" none 6)), ⟨.record [], ""⟩) := by
  have htree : Program.tree .blocks (wrap .blocks ("x=1" ++ " //" ++ "c")) =
      .error (.unexpected (Token.make "/" none 6)) := rfl
  exact ⟨ofStage_assigning, ofStage_of_error htree _⟩

end Session

end Stepwise
