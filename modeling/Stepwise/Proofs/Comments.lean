import Stepwise.Proofs.Placement
import Stepwise.Proofs.Remainders
import Stepwise.Proofs.Seams

/-!
# Comments that are tokens

Up to `conditions` a comment makes a token, and no rule has a use for it. So a comment in a text is
where the text ends: what stands behind it is cut into tokens and then dropped
(`comment_ends_program`).

- `Lexeme.tokensAt_append`: a text and what follows it at a seam;
- `Lexeme.tokensAt_comment`: a comment at the head of a text;
- `tokenize_spaced`, `tokenize_commented`: two texts with a space or a comment between them;
- `parse_before_foreign`: a token for which no rule has a use is as good as the ending.
-/

namespace Stepwise

/-! ## Tokens -/

/-- The token of a comment. -/
def commentToken (c : String) (position : Nat) : Token :=
  Token.make "comment" (some (.text ("//" ++ c ++ "\n"))) position

namespace Lexeme

/-- The tokens of a text with no `//` in its last line stay what they are if another text follows
at a seam. -/
theorem tokensAt_append {st : Stage} {cs tail : List Char} {ts : List Token}
    (h : tokensAt st 0 cs = .ok ts) (hline : ¬ ['/', '/'] <:+: cs.rtakeWhile (· != '\n'))
    (htail : Halted tail) :
    tokensAt st 0 (cs ++ tail) = (tokensAt st cs.length tail).map (ts ++ ·) := by
  obtain ⟨xs, hcuts, hts⟩ := exists_cuts_of_tokensAt h
  have htext := hcuts.flatten_text
  have hfinished : ∀ ys, ys <:+ xs → Finished (ys.map text).flatten := by
    rintro ys ⟨before, rfl⟩
    refine finished_of_suffix hline ⟨(before.map text).flatten, ?_⟩
    rw [← htext, List.map_append, List.flatten_append]
  have hends : Cuts st 0 ((xs.map text).flatten ++ []) (xs ++ []) := by
    simpa [htext] using hcuts
  have hwhole := hends.tokensAt_seam (by rintro c ⟨⟩) htail hfinished hts
  rwa [htext, Nat.zero_add] at hwhole

theorem tokensAt_space (st : Stage) (position : Nat) (cs : List Char) :
    tokensAt st position (' ' :: cs) = tokensAt st (position + 1) cs := by
  have hblank : ∀ c ∈ [' '], Text.isBlank c = true := List.forall_mem_singleton.2 (by decide)
  rw [tokensAt, tokensAt, ← List.singleton_append, scanFrom_blank st hblank]
  rfl

/-- Up to `conditions` a comment makes a token. -/
theorem tokensAt_comment {st : Stage} (hst : st.has .blocks = false) {c : String}
    (hc : '\n' ∉ c.toList) (position : Nat) (rest : List Char) :
    tokensAt st position (("//" ++ c ++ "\n").toList ++ rest) =
      (tokensAt st (position + (c.length + 3)) rest).map (commentToken c position :: ·) := by
  have hform : (LexClass.comment).Form ("//" ++ c ++ "\n").toList := ⟨c.toList, by simp, hc⟩
  have hlength : ("//" ++ c ++ "\n").toList.length = c.length + 3 := by
    rw [String.length_toList, String.length_append, String.length_append]
    show 2 + c.length + 1 = c.length + 3
    omega
  have hskips : st.skips .comment = false := hst
  have htoken : token st ⟨.comment, ("//" ++ c ++ "\n").toList, position⟩ =
      .ok (commentToken c position) := by
    simp only [token, hst, String.ofList_toList]
    rfl
  rw [tokensAt_cut (classify_comment st hform rest) hskips htoken, hlength]

end Lexeme

section Between

variable {st : Stage} {a : String} {us : List Token} (hus : tokenize st a = .ok us)
  (hline : ¬ ['/', '/'] <:+: a.toList.rtakeWhile (· != '\n'))
include hus hline

/-- A space between two texts separates their tokens. -/
theorem tokenize_spaced (b : String) : tokenize st (a ++ " " ++ b) =
    (tokenize st b).map fun vs => us ++ vs.map (Token.moved (a.length + 1)) := by
  have hseam : Lexeme.Halted (' ' :: b.toList) := Lexeme.halted_cons (by decide) _
  have hcode : (a ++ " " ++ b).toList = a.toList ++ ' ' :: b.toList := by simp
  show Lexeme.tokensAt st 0 (a ++ " " ++ b).toList = _
  rw [hcode, Lexeme.tokensAt_append hus hline hseam, Lexeme.tokensAt_space,
    Lexeme.tokensAt_eq_moved, String.length_toList]
  cases tokenize st b <;> rfl

/-- Up to `conditions` a comment between two texts makes a token of its own. -/
theorem tokenize_commented (hst : st.has .blocks = false) {c : String} (hc : '\n' ∉ c.toList)
    (b : String) : tokenize st (a ++ " //" ++ c ++ "\n" ++ b) =
      (tokenize st b).map fun vs => us ++ commentToken c (a.length + 1) ::
        vs.map (Token.moved (a.length + 1 + (c.length + 3))) := by
  have hseam : ∀ rest, Lexeme.Halted (' ' :: rest) := Lexeme.halted_cons (by decide)
  have hcode : (a ++ " //" ++ c ++ "\n" ++ b).toList =
      a.toList ++ ' ' :: (("//" ++ c ++ "\n").toList ++ b.toList) := by simp
  show Lexeme.tokensAt st 0 (a ++ " //" ++ c ++ "\n" ++ b).toList = _
  rw [hcode, Lexeme.tokensAt_append hus hline (hseam _), Lexeme.tokensAt_space,
    Lexeme.tokensAt_comment hst hc, Lexeme.tokensAt_eq_moved, String.length_toList]
  cases tokenize st b <;> rfl

end Between

/-! ## Trees -/

/-- **A token for which no rule has a use is the end.** What stands behind it is never looked at.
From `functions` on a `return` in front of it would have to have a value. -/
theorem parse_before_foreign {st : Stage} (hst : st.has .functions = false) {s : Token}
    (hs : Rule.Foreign st s) {ts ws : List Token} {t : Tree} :
    parse st (ts ++ s :: ws) = .ok t ↔ parse st ts = .ok t := by
  have hreturn : (Rule.start st).mayReturn st = false := by
    rw [Rule.start]
    split
    · exact hst
    · rfl
  have hquits : ∀ ws, Rule.Quits st (Rule.start st) (s :: ws) := by
    intro ws
    rw [Rule.Quits, hreturn]
    exact hs.stops ws
  rw [parse_eq_ok_iff_read, parse_eq_ok_iff_read, List.append_assoc, List.cons_append]
  constructor
  · rintro ⟨rest, hread⟩
    obtain ⟨ys, hagain⟩ := Rule.read_foreign hs (.ending _ []) hread
    exact ⟨_, hagain⟩
  · rintro ⟨rest, hread⟩
    obtain ⟨ys, hagain⟩ := Rule.read_foreign (.ending st) (hquits _) hread
    exact ⟨_, hagain⟩

/-- No rule looks for the token of a comment. -/
theorem commentToken_foreign (st : Stage) (c : String) (position : Nat) :
    Rule.Foreign st (commentToken c position) := by
  have hcomment : "comment" ∉ "/" :: Rule.vocabulary st := by
    cases st <;> decide
  refine ⟨.text "comment", rfl, ?_⟩
  rintro tag htag heq
  exact hcomment (Value.text.inj heq ▸ htag)

/-- **A comment ends the program.** Up to `conditions` let `a` be a text with tokens that has no
`//` in its last line, let `b` be a text, and let the two with a space between them have tokens. A
comment between them is a token there, behind those of `a` and before those of `b`, which are the
same as without it but for their positions. The program is then the one that `a` is alone. -/
theorem comment_ends_program {st : Stage} (hst : st.has .blocks = false) {a b c : String}
    {ts us : List Token} (hts : tokenize st (a ++ " " ++ b) = .ok ts)
    (hus : tokenize st a = .ok us)
    (hline : ¬ ['/', '/'] <:+: a.toList.rtakeWhile (· != '\n')) (hc : '\n' ∉ c.toList) :
    ∃ vs, tokenize st b = .ok vs ∧ ts = us ++ vs.map (Token.moved (a.length + 1)) ∧
      tokenize st (a ++ " //" ++ c ++ "\n" ++ b) =
        .ok (us ++ commentToken c (a.length + 1) ::
          vs.map (Token.moved (a.length + 1 + (c.length + 3)))) ∧
      (∀ t, Program.tree st (a ++ " //" ++ c ++ "\n" ++ b) = .ok t ↔ Program.tree st a = .ok t) ∧
      ∀ t, Program.tree st a = .ok t → ∀ n,
        Program.within st n (a ++ " //" ++ c ++ "\n" ++ b) = Program.within st n a := by
  have hfunctions : st.has .functions = false := by
    rw [Bool.eq_false_iff] at hst ⊢
    exact fun h => hst (Stage.has_of_rank_le h (by decide))
  have hspaced := tokenize_spaced hus hline b
  have hcommented := tokenize_commented hus hline hst hc b
  cases hvs : tokenize st b with
  | error e =>
    rw [hspaced, hvs] at hts
    cases hts
  | ok vs =>
    rw [hvs] at hspaced hcommented
    have htree : ∀ t, Program.tree st (a ++ " //" ++ c ++ "\n" ++ b) = .ok t ↔
        Program.tree st a = .ok t := by
      intro t
      rw [Program.tree_eq_parse hcommented, Program.tree_eq_parse hus]
      exact parse_before_foreign hfunctions (commentToken_foreign st c _)
    refine ⟨vs, rfl, Except.ok.inj (hts.symm.trans hspaced), hcommented, htree, fun t ht n => ?_⟩
    rw [Program.within, Program.within, (htree t).2 ht, ht]

/-- A comment within a sum makes the sum its first number. -/
theorem comment_cuts_sum :
    Program.tree .expressions "1 +2" = .ok (Tree.binary .expressions "+"
      (Tree.leaf .expressions "number" (.int 1)) (Tree.leaf .expressions "number" (.int 2))) ∧
    tokenize .expressions "1 //c\n+2" = .ok [Token.make "number" (some (.int 1)) 0,
      commentToken "c" 2, Token.make "+" (some (.text "+")) 6,
      Token.make "number" (some (.int 2)) 7] ∧
    Program.tree .expressions "1 //c\n+2" = .ok (Tree.leaf .expressions "number" (.int 1)) :=
  ⟨rfl, rfl, rfl⟩

/-- The tokens of an assignment. -/
def productTokens : List Token :=
  [Token.make "identifier" (some (.text "u")) 0, Token.make "=" (some (.text "=")) 1,
   Token.make "number" (some (.int 6)) 2]

/-- What is left of `u=6*7` with a comment before the operator. -/
theorem comment_ends_program_of_product :
    tokenize .assignments "u=6 *7" = .ok (productTokens ++
      [Token.make "*" (some (.text "*")) 4, Token.make "number" (some (.int 7)) 5]) ∧
    tokenize .assignments "u=6" = .ok productTokens ∧
    tokenize .assignments "u=6 //z\n*7" = .ok (productTokens ++ commentToken "z" 4 ::
      [Token.make "*" (some (.text "*")) 8, Token.make "number" (some (.int 7)) 9]) ∧
    ∀ n, Program.within .assignments n "u=6 //z\n*7" = Program.within .assignments n "u=6" := by
  have hspaced : tokenize .assignments ("u=6" ++ " " ++ "*7") = .ok (productTokens ++
      [Token.make "*" (some (.text "*")) 4, Token.make "number" (some (.int 7)) 5]) := rfl
  have hus : tokenize .assignments "u=6" = .ok productTokens := rfl
  have hline : ¬ ['/', '/'] <:+: "u=6".toList.rtakeWhile (· != '\n') := by
    have hlast : "u=6".toList.rtakeWhile (· != '\n') = ['u', '=', '6'] := rfl
    rw [hlast]
    intro hslashes
    exact absurd (hslashes.subset (List.mem_cons_self ..)) (by decide)
  obtain ⟨vs, hvs, -, htokens, -, hwithin⟩ :=
    comment_ends_program rfl hspaced hus hline (by decide : '\n' ∉ "z".toList)
  refine ⟨hspaced, hus, ?_, hwithin _ rfl⟩
  cases hvs
  exact htokens

end Stepwise
