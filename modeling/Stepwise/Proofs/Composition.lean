import Stepwise.Proofs.Braces
import Stepwise.Proofs.Budget
import Stepwise.Session.Interactive

/-!
# Texts joined in a session

From `blocks` to `functions` a session may run two texts at once, with a semicolon between them, or
one after the other: the environment and the output are the same, and so is the fault, if there is
one (`ofStage_joined`).

- `Session.Complete`: in braces the text is a block, and nothing is left behind it;
- `tree_joined`: the block of the joined texts holds the statements of both;
- `Session.perform`: the statements of a block within a budget. A block needs one unit more for
  each statement before the last, so the joined texts may need a larger budget, but do the same.
-/

namespace Stepwise

namespace Session

/-- In braces the text is a block with one statement at least, and no token is left behind it. -/
def Complete (st : Stage) (text : String) : Prop :=
  ∃ ts s more, tokenize st (wrap st text) = .ok ts ∧
    Rule.statement.read st (ts ++ [Token.ending]) = .ok (Tree.block (s :: more), [Token.ending])

section Complete

variable {st : Stage} (hst : st.has .blocks = true)
include hst

theorem toList_wrap (text : String) :
    (wrap st text).toList = '\x7b' :: (text.toList ++ ['\x7d']) := by
  simp [wrap, hst]

/-- What is known of a complete text: its tokens and its statements, without the closing brace. -/
theorem Complete.split {text : String} (h : Complete st text) :
    ∃ us q ss, ss ≠ [] ∧ Program.tree st (wrap st text) = .ok (Tree.block ss) ∧
      Rule.Sequence st (us ++ [Token.make "\x7d" none q, Token.ending]) ss
        [Token.make "\x7d" none q, Token.ending] ∧
      Lexeme.tokensAt st 1 (text.toList ++ ['\x7d']) = .ok (us ++ [Token.make "\x7d" none q]) ∧
      ∀ tail, Lexeme.Halted tail → Lexeme.tokensAt st 0 ('\x7b' :: (text.toList ++ tail)) =
        (Lexeme.tokensAt st (1 + text.length) tail).map
          (Token.make "\x7b" none 0 :: us ++ ·) := by
  obtain ⟨ts, s, more, hts, hread⟩ := h
  have htokens : Lexeme.tokensAt st 0 ('\x7b' :: (text.toList ++ ['\x7d'])) = .ok ts := by
    rw [← toList_wrap hst]
    exact hts
  -- the parser has been through all the tokens, so no two slashes stand in a row
  have hapart : Rule.Apart ts := by
    obtain ⟨us, hus, htaken, -⟩ := (Rule.read_solid st .statement).toLocal _ _ hread
    rw [List.append_cancel_right hus]
    exact htaken.apart
  obtain ⟨us, q, rfl, hlater, hseam⟩ := Lexeme.tokensAt_wrapped hst htokens
  have hopen := (Token.fields_make "\x7b" none 0).1
  have hblock : Rule.blockStatement.read st (Token.make "\x7b" none 0 ::
      (us ++ [Token.make "\x7d" none q, Token.ending])) =
      .ok (Tree.block (s :: more), [Token.ending]) := by
    rw [← Rule.read_statement_of_brace hst hopen]
    simpa using hread
  obtain ⟨ss, close, hss, -, hsequence⟩ := (Rule.read_block_iff hopen).1 hblock
  -- the sequence ends with the brace that stands last in the text
  obtain rfl : Token.make "\x7d" none q = close := by
    obtain ⟨ws, hws⟩ := hsequence.exists_append
    exact (List.cons.inj (List.append_inj' hws rfl).2).1
  refine ⟨us, q, ss, ?_, ?_, hsequence, hlater, fun tail htail => hseam tail htail (.inl hapart)⟩
  · rintro rfl
    cases more <;> simp [Tree.block, Tree.node] at hss
  · rw [Program.tree_eq_parse hts, parse_eq_ok_iff (Stage.has_of_rank_le hst (by decide)), ← hss]
    exact ⟨_, hread⟩

/-- **The tree of two texts with a semicolon between them** holds the statements of both. -/
theorem tree_joined {a b : String} (ha : Complete st a) (hb : Complete st b) :
    ∃ xs ys, xs ≠ [] ∧ ys ≠ [] ∧ Program.tree st (wrap st a) = .ok (Tree.block xs) ∧
      Program.tree st (wrap st b) = .ok (Tree.block ys) ∧
      Program.tree st (wrap st (a ++ ";" ++ b)) = .ok (Tree.block (xs ++ ys)) := by
  obtain ⟨us, q, xs, hxs, hta, hsequence, -, hseam⟩ := ha.split hst
  obtain ⟨vs, q', ys, hys, htb, hsequence', hlater, -⟩ := hb.split hst
  refine ⟨xs, ys, hxs, hys, hta, htb, ?_⟩
  have hopen := (Token.fields_make "\x7b" none 0).1
  have hclose := (Token.fields_make "\x7d" none q).1
  have hsemi := (Token.fields_make ";" none (1 + a.length)).1
  -- the tokens of the second text are those that it has by itself, further behind
  have htokens : tokenize st (wrap st (a ++ ";" ++ b)) =
      .ok (Token.make "\x7b" none 0 :: us ++ Token.make ";" none (1 + a.length) ::
        (vs ++ [Token.make "\x7d" none q']).map (Token.moved (1 + a.length))) := by
    have hchars : (wrap st (a ++ ";" ++ b)).toList =
        '\x7b' :: (a.toList ++ ';' :: (b.toList ++ ['\x7d'])) := by
      simp [toList_wrap hst]
    show Lexeme.tokensAt st 0 (wrap st (a ++ ";" ++ b)).toList = _
    rw [hchars, hseam _ (Lexeme.halted_cons (by decide) _),
      Lexeme.tokensAt_sign hst (by decide) (by decide), Nat.add_comm (1 + a.length) 1,
      Lexeme.tokensAt_moved, hlater]
    rfl
  have halike : Rule.Abreast (vs ++ [Token.make "\x7d" none q', Token.ending])
      ((vs ++ [Token.make "\x7d" none q']).map (Token.moved (1 + a.length)) ++
        [Token.ending]) := by
    have hmap : ∀ ts : List Token, Rule.Abreast ts (ts.map (Token.moved (1 + a.length))) := by
      intro ts
      rw [Rule.Abreast, List.forall₂_map_right_iff, List.forall₂_same]
      exact fun t _ => t.alike_moved _
    rw [List.append_cons]
    exact List.rel_append (hmap _) (.cons (.refl _) .nil)
  obtain ⟨rest, hmoved⟩ := hsequence'.alike halike
  have hjoined := hsequence.join rfl hclose hsemi hmoved
  obtain ⟨close, more, rfl, hclose'⟩ := hjoined.closing
  rw [Program.tree_eq_parse htokens, parse_eq_ok_iff (Stage.has_of_rank_le hst (by decide))]
  refine ⟨more, ?_⟩
  rw [List.append_assoc, List.cons_append, Rule.read_statement_of_brace hst hopen]
  exact (Rule.read_block_iff hopen).2 ⟨_, close, rfl, hclose', hjoined⟩

end Complete

/-! ## Statements one after the other -/

/-- The statements of a block, within a budget. -/
def perform (st : Stage) (n : Nat) (ss : List Tree) : Action Unit := do
  let _ ← evaluate st n .statement (Tree.block ss)
  return ()

theorem perform_growing (st : Stage) (ss : List Tree) : Action.Growing fun n => perform st n ss :=
  .bind (evaluate_growing st .statement _) fun _ => .const _

section Perform

variable {st : Stage} (hst : st.has .blocks = true) (hreturns : st ≠ .returns)
include hst hreturns

omit hreturns in
theorem perform_one (n : Nat) (s : Tree) : perform st (n + 1) [s] = (do
    let _ ← evaluate st n .statement s
    return ()) := by
  rw [perform, evaluate_block_one n hst, bind_assoc]
  rfl

/-- Statements are performed one after the other. -/
theorem perform_cons (n : Nat) (s u : Tree) (ss : List Tree) :
    perform st (n + 1) (s :: u :: ss) = (do
      let _ ← evaluate st n .statement s
      perform st n (u :: ss)) := by
  rw [perform, evaluate_block_next n hst, bind_assoc]
  -- nothing returns before `returns`
  refine (evaluate_quiet_of_ne hreturns n .statement s).bind_congr fun first hfirst => ?_
  simp [perform, hfirst]

/-- Joined statements do what they do one part after the other, with no larger budget. -/
theorem perform_append_extends {xs ys : List Tree} (hxs : xs ≠ []) (hys : ys ≠ []) {n k : Nat}
    (hnk : n ≤ k) :
    Action.Extends (perform st n (xs ++ ys)) (do perform st n xs; perform st k ys) := by
  obtain ⟨y, ys, rfl⟩ := List.exists_cons_of_ne_nil hys
  induction xs generalizing n with
  | nil => exact absurd rfl hxs
  | cons x xs ih =>
    cases n with
    | zero => exact .of_exhausted _
    | succ n =>
      cases xs with
      | nil =>
        rw [List.singleton_append, perform_cons hst hreturns, perform_one hst, bind_assoc]
        exact .bind (.refl _) fun _ => perform_growing st _ n k (Nat.le_of_succ_le hnk)
      | cons x' xs =>
        rw [List.cons_append, List.cons_append, perform_cons hst hreturns,
          perform_cons hst hreturns, bind_assoc]
        exact .bind (.refl _) fun _ => ih (List.cons_ne_nil _ _) (Nat.le_of_succ_le hnk)

/-- The parts one after the other do what the joined statements do with a larger budget. -/
theorem perform_extends_append {xs ys : List Tree} (hxs : xs ≠ []) (hys : ys ≠ []) {n j k : Nat}
    (hnk : n ≤ k) (hjk : j + xs.length ≤ k) :
    Action.Extends (do perform st n xs; perform st j ys) (perform st k (xs ++ ys)) := by
  obtain ⟨y, ys, rfl⟩ := List.exists_cons_of_ne_nil hys
  induction xs generalizing n k with
  | nil => exact absurd rfl hxs
  | cons x xs ih =>
    rw [List.length_cons] at hjk
    cases n with
    | zero => exact .of_exhausted _
    | succ n =>
      obtain ⟨k, rfl⟩ := Nat.exists_eq_add_of_le' (Nat.le_trans (Nat.le_add_left 1 n) hnk)
      have hstatement := evaluate_growing st .statement x n k (by omega)
      cases xs with
      | nil =>
        rw [List.singleton_append, perform_cons hst hreturns, perform_one hst, bind_assoc]
        exact .bind hstatement fun _ => perform_growing st _ j k (by simpa using hjk)
      | cons x' xs =>
        rw [List.cons_append, List.cons_append, perform_cons hst hreturns,
          perform_cons hst hreturns, bind_assoc]
        exact .bind hstatement fun _ => ih (List.cons_ne_nil _ _) (by omega) (by omega)

end Perform

/-! ## Texts one after the other -/

/-- Runs a text in the session's environment, within a budget. -/
def within (st : Stage) (n : Nat) (text : String) : Action Unit := do
  let _ ← Program.within st n (wrap st text)
  return ()

theorem within_eq_perform {st : Stage} {text : String} {ss : List Tree}
    (h : Program.tree st (wrap st text) = .ok (Tree.block ss)) (n : Nat) :
    within st n text = perform st n ss := by
  rw [within, Program.within, h]
  rfl

/-- Up to `functions` a session only runs its texts, each with the budget of programs. -/
theorem ofStage_eq_within {st : Stage} (hreturns : st ≠ .returns) :
    ofStage st = within st Program.budget := by
  funext text
  simp only [ofStage, if_neg hreturns]
  rfl

/-- **Texts can be joined.** Two texts that are complete do, with a semicolon between them, what
they do one after the other: with enough budget both ways leave the same environment and output,
with the same fault if there is one, and neither ends if the other does not. The session itself
runs texts with a fixed budget; if the joined texts do not run out of it, neither do the texts one
after the other, and they do the same. -/
theorem ofStage_joined {st : Stage} (hst : st.has .blocks = true) (hreturns : st ≠ .returns)
    {a b : String} (ha : Complete st a) (hb : Complete st b) :
    (∀ m r m', Action.Reaches (fun n => within st n (a ++ ";" ++ b)) m r m' ↔
      Action.Reaches (fun n => do within st n a; within st n b) m r m') ∧
    ofStage st = within st Program.budget ∧
    Action.Extends (ofStage st (a ++ ";" ++ b)) (do ofStage st a; ofStage st b) := by
  obtain ⟨xs, ys, hxs, hys, hta, htb, htab⟩ := tree_joined hst ha hb
  have hjoined := fun n => perform_append_extends hst hreturns hxs hys (Nat.le_refl n)
  refine ⟨fun m r m' => ?_, ofStage_eq_within hreturns, ?_⟩
  · -- the second part of the joined block starts with a unit less for each statement of the first
    simp only [within_eq_perform hta, within_eq_perform htb, within_eq_perform htab]
    refine ⟨.of_extends id hjoined, .of_extends (· + xs.length) fun n => ?_⟩
    exact perform_extends_append hst hreturns hxs hys (Nat.le_add_right _ _) (Nat.le_refl _)
  · simp only [ofStage_eq_within hreturns, within_eq_perform hta, within_eq_perform htb,
      within_eq_perform htab]
    exact hjoined _

/-- A text that ends in a comment, and one that starts with a semicolon and divides. -/
theorem ofStage_joined_of_comment :
    Complete .scopes "u=6//a\n" ∧ Complete .scopes ";u=u/2" ∧
    (∀ m r m', Action.Reaches (fun n => within .scopes n ("u=6//a\n" ++ ";" ++ ";u=u/2")) m r m' ↔
      Action.Reaches (fun n => do within .scopes n "u=6//a\n"; within .scopes n ";u=u/2") m r m') ∧
    Action.Extends (ofStage .scopes ("u=6//a\n" ++ ";" ++ ";u=u/2"))
      (do ofStage .scopes "u=6//a\n"; ofStage .scopes ";u=u/2") := by
  have ha : Complete .scopes "u=6//a\n" := by
    refine ⟨[Token.make "\x7b" none 0, Token.make "<identifier>" (some (.text "u")) 1,
      Token.make "=" none 2, Token.make "<number>" (some (.int 6)) 3, Token.make "\x7d" none 8],
      Tree.assign .scopes (Tree.leaf .scopes "<identifier>" (.text "u"))
        (Tree.leaf .scopes "<number>" (.int 6)), [], by rfl, by rfl⟩
  have hb : Complete .scopes ";u=u/2" := by
    refine ⟨[Token.make "\x7b" none 0, Token.make ";" none 1,
      Token.make "<identifier>" (some (.text "u")) 2, Token.make "=" none 3,
      Token.make "<identifier>" (some (.text "u")) 4, Token.make "/" none 5,
      Token.make "<number>" (some (.int 2)) 6, Token.make "\x7d" none 7],
      Tree.assign .scopes (Tree.leaf .scopes "<identifier>" (.text "u"))
        (Tree.binary .scopes "/" (Tree.leaf .scopes "<identifier>" (.text "u"))
          (Tree.leaf .scopes "<number>" (.int 2))), [], by rfl, by rfl⟩
  obtain ⟨hreaches, -, hsession⟩ := ofStage_joined rfl (by decide) ha hb
  exact ⟨ha, hb, hreaches, hsession⟩

end Session

end Stepwise
