import Stepwise.Proofs.ParserLocality
import Stepwise.Proofs.ParserSafety

/-!
# What the parser leaves

A program is one statement, and the parser is content with less than all of its tokens: it reads a
statement and drops what stands behind it (`parse_reads_longest`). How much it reads is determined
by the tokens alone. It is the longest part from the first token on that is a program by itself,
and of what it drops it has looked at one token only.

- `Rule.Foreign`: a token for which no rule has a use, as the ending. What stands before it is read
  without what stands behind it (`read_foreign`);
- `Rule.Whole`: the tokens are a program, all of them.
-/

namespace Stepwise

namespace Rule

open Token (headTag Is)

variable {st : Stage} {r : Rule} {s s' : Token} {xs ws ws' : List Token}

/-- No rule looks for the tag of the token. -/
def Foreign (st : Stage) (s : Token) : Prop :=
  ∃ v, s.field "tag" = .ok v ∧ ∀ tag ∈ "/" :: vocabulary st, v ≠ .text tag

theorem Foreign.ending (st : Stage) : Foreign st Token.ending :=
  ⟨.null, rfl, nofun⟩

theorem goesOn_subset (st : Stage) : goesOn st ⊆ "/" :: vocabulary st := by
  cases st <;> decide

/-- A foreign token ends every reading. -/
theorem Foreign.stops (h : Foreign st s) (ws : List Token) : Stops (goesOn st) (s :: ws) := by
  obtain ⟨v, hv, hne⟩ := h
  exact ⟨v, hv, fun tag htag => hne tag (goesOn_subset st htag)⟩

theorem Quits.ending (r : Rule) (ws : List Token) : Quits st r (Token.ending :: ws) :=
  .of_ended ⟨.null, rfl, rfl⟩ r

/-- Tokens that are taken end before a foreign one. -/
theorem Taken.append_eq {us rest : List Token} (hus : Taken st us) (hs : Foreign st s)
    (h : xs ++ s :: ws = us ++ rest) : ∃ ys, xs = us ++ ys ∧ rest = ys ++ s :: ws := by
  rcases List.append_eq_append_iff.1 h with ⟨bs, rfl, hbs⟩ | ⟨ys, rfl, rfl⟩
  · cases bs with
    | nil => exact ⟨[], by simp, hbs.symm⟩
    | cons b bs =>
      obtain ⟨rfl, -⟩ := List.cons.inj hbs
      obtain ⟨tag, htag, hb⟩ := hus.known s (by simp)
      obtain ⟨v, hv, hne⟩ := hs
      exact absurd (Except.ok.inj (hv.symm.trans hb)) (hne tag htag)
  · exact ⟨ys, rfl, rfl⟩

/-- What is read before a foreign token. -/
theorem read_before (hs : Foreign st s) {t : Tree} {rest : List Token}
    (h : r.read st (xs ++ s :: ws) = .ok (t, rest)) :
    ∃ us ys, xs = us ++ ys ∧ rest = ys ++ s :: ws ∧
      ∀ rest', SameAhead (Quits st r) rest rest' → r.read st (us ++ rest') = .ok (t, rest') := by
  obtain ⟨us, hus, htaken, hagain⟩ := (read_solid st r).toLocal _ _ h
  obtain ⟨ys, rfl, hrest⟩ := htaken.append_eq hs hus
  exact ⟨us, ys, rfl, hrest, hagain⟩

/-- **A foreign token is where a text ends**: another one may stand in its place, and anything
behind it. -/
theorem read_foreign (hs : Foreign st s) (hs' : Quits st r (s' :: ws')) {t : Tree}
    {rest : List Token} (h : r.read st (xs ++ s :: ws) = .ok (t, rest)) :
    ∃ ys, r.read st (xs ++ s' :: ws') = .ok (t, ys ++ s' :: ws') := by
  obtain ⟨us, ys, rfl, rfl, hagain⟩ := read_before hs h
  refine ⟨ys, ?_⟩
  rw [List.append_assoc]
  exact hagain _ (SameAhead.append (.calm hs') ys)

/-- The tokens are a program, from the first to the last. -/
def Whole (st : Stage) (ts : List Token) (t : Tree) : Prop :=
  (start st).read st (ts ++ [Token.ending]) = .ok (t, [Token.ending])

/-- Rules look for all tokens of a program. -/
theorem Whole.taken {ts : List Token} {t : Tree} (h : Whole st ts t) : Taken st ts := by
  obtain ⟨us, hus, htaken, -⟩ := (read_solid st _).toLocal _ _ h
  obtain rfl := List.append_cancel_right hus
  exact htaken

end Rule

/-- **The parser reads the longest program in front.** If it gives a tree, then this is the tree of
the first tokens, up to a place where it stops, and whatever stands behind them is dropped without
a fault. These tokens are a program by themselves, with the same tree, and no longer part of the
tokens from the first one on is a program. Of what is dropped only the first token matters: with
anything else behind that one the tree is the same. -/
theorem parse_reads_longest {st : Stage} {ts : List Token} {t : Tree} (h : parse st ts = .ok t) :
    ∃ front rest, ts = front ++ rest ∧
      (Rule.start st).read st (ts ++ [Token.ending]) = .ok (t, rest ++ [Token.ending]) ∧
      Rule.Whole st front t ∧
      (∀ longer t', longer <+: ts → Rule.Whole st longer t' → longer <+: front) ∧
      ∀ u more more', rest = u :: more → parse st (front ++ u :: more') = .ok t := by
  obtain ⟨rest, hread⟩ := parse_eq_ok_iff_read.1 h
  obtain ⟨us, ys, rfl, rfl, hagain⟩ := Rule.read_before (Rule.Foreign.ending st) hread
  refine ⟨us, ys, rfl, hread, hagain _ (.calm (.ending _ [])), ?_, ?_⟩
  · intro longer t' hlonger hwhole
    rcases List.prefix_or_prefix_of_prefix hlonger (List.prefix_append us ys) with hle | ⟨vs, rfl⟩
    · exact hle
    · cases vs with
      | nil => simp
      | cons v vs =>
        -- the longer part starts as the tokens do, so the parser stops at the same place in it
        obtain ⟨zs, hzs⟩ := hlonger
        obtain ⟨more, rfl⟩ : ∃ more, ys = v :: more :=
          ⟨vs ++ zs, (List.append_cancel_left ((List.append_assoc us _ _).symm.trans hzs)).symm⟩
        have hstop := hagain (v :: vs ++ [Token.ending]) (.same v _ _)
        rw [← List.append_assoc, hwhole] at hstop
        simp at hstop
  · rintro u more more' rfl
    rw [parse_eq_ok_iff_read, List.append_assoc]
    exact ⟨_, hagain _ (.same u _ _)⟩

/-- A number behind a number is dropped. -/
theorem parse_drops_number :
    tokenize .returns "1 2" = .ok [Token.make "<number>" (some (.int 1)) 0,
      Token.make "<number>" (some (.int 2)) 2] ∧
    parse .returns [Token.make "<number>" (some (.int 1)) 0,
      Token.make "<number>" (some (.int 2)) 2] =
      .ok (Tree.leaf .returns "<number>" (.int 1)) ∧
    ¬ Rule.Whole .returns [Token.make "<number>" (some (.int 1)) 0,
      Token.make "<number>" (some (.int 2)) 2] (Tree.leaf .returns "<number>" (.int 1)) := by
  refine ⟨rfl, rfl, fun hwhole => ?_⟩
  have hread : (Rule.start .returns).read .returns [Token.make "<number>" (some (.int 1)) 0,
      Token.make "<number>" (some (.int 2)) 2, Token.ending] =
      .ok (Tree.leaf .returns "<number>" (.int 1),
        [Token.make "<number>" (some (.int 2)) 2, Token.ending]) := rfl
  cases hwhole.symm.trans hread

/-- The tokens of a block with a brace too many behind it. -/
def overclosedTokens : List Token :=
  [Token.make "\x7b" none 0, Token.make "<identifier>" (some (.text "v")) 1,
   Token.make "=" none 2, Token.make "<number>" (some (.int 5)) 3, Token.make "\x7d" none 4,
   Token.make "<identifier>" (some (.text "w")) 5, Token.make "\x7d" none 6]

/-- The tree of the block alone. -/
def closedBlock : Tree :=
  Tree.block [Tree.assign .returns (Tree.leaf .returns "<identifier>" (.text "v"))
    (Tree.leaf .returns "<number>" (.int 5))]

/-- A text in braces with a brace in it that is not opened there ends at that brace. -/
theorem parse_reads_longest_of_overclosed :
    tokenize .returns "\x7bv=5\x7dw\x7d" = .ok overclosedTokens ∧
    parse .returns overclosedTokens = .ok closedBlock ∧
    ∃ front rest, overclosedTokens = front ++ rest ∧
      (Rule.start .returns).read .returns (overclosedTokens ++ [Token.ending]) =
        .ok (closedBlock, rest ++ [Token.ending]) ∧
      Rule.Whole .returns front closedBlock ∧
      (∀ longer t', longer <+: overclosedTokens → Rule.Whole .returns longer t' →
        longer <+: front) ∧
      ∀ u more more', rest = u :: more →
        parse .returns (front ++ u :: more') = .ok closedBlock := by
  have htokens : tokenize .returns "\x7bv=5\x7dw\x7d" = .ok overclosedTokens := rfl
  have hparse : parse .returns overclosedTokens = .ok closedBlock := rfl
  exact ⟨htokens, hparse, parse_reads_longest hparse⟩

end Stepwise
