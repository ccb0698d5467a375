import Stepwise.Proofs.Braces

/-!
# Semicolons in blocks

Semicolons separate the statements of a block and say nothing else. However many stand before the
statements, between them and behind them, the block is the chain of the same trees
(`block_semicolons`).

- `Rule.Entry`: a statement of a block, with the semicolons behind it;
- `Entry.sequence`: entries one behind the other hold the statements of a block, as long as no two
  of them stand without a semicolon between them.
-/

namespace Stepwise.Rule

open Token (headTag Is)

variable {st : Stage}

/-- No statement starts with what ends one. -/
theorem ends_not_openers (st : Stage) : ∀ tag ∈ ends, tag ∉ openers st := by
  cases st <;> decide

/-- Semicolons in front of a sequence belong to it. -/
theorem Sequence.semicolons {ts rest signs : List Token} {ss : List Tree}
    (h : Sequence st ts ss rest) (hsigns : ∀ t ∈ signs, Is ";" t) :
    Sequence st (signs ++ ts) ss rest := by
  induction signs with
  | nil => exact h
  | cons t signs ih =>
    rw [List.forall_mem_cons] at hsigns
    exact .semicolon hsigns.1 (ih hsigns.2)

/-- A statement as it stands in a block. Before a semicolon all of its tokens are read, with this
tree. -/
structure Entry (st : Stage) where
  tokens : List Token
  tree : Tree
  /-- The semicolons behind the statement. -/
  semicolons : List Token
  reads : ∃ semicolon more, Is ";" semicolon ∧
    statement.read st (tokens ++ semicolon :: more) = .ok (tree, semicolon :: more)
  separate : ∀ t ∈ semicolons, Is ";" t

namespace Entry

/-- The tokens of the statement and the semicolons behind it. -/
def written (e : Entry st) : List Token :=
  e.tokens ++ e.semicolons

/-- The statement is read before a brace as it is before a semicolon. -/
theorem read_before (e : Entry st) {rest : List Token}
    (hrest : ∃ tag ∈ ends, headTag rest = .ok (.text tag)) :
    statement.read st (e.tokens ++ rest) = .ok (e.tree, rest) := by
  obtain ⟨semicolon, more, -, hread⟩ := e.reads
  obtain ⟨tag, htag, hhead⟩ := hrest
  obtain ⟨t, ts, rfl, ht⟩ := exists_of_headTag hhead
  exact read_again hread (.of_ended (.of_mem htag ht ts) _)

/-- Entries one behind the other are the statements of a block, up to its closing brace. -/
theorem sequence {closing : Token} (hclosing : Is "\x7d" closing) (rest : List Token) :
    ∀ entries : List (Entry st), (∀ e ∈ entries.dropLast, e.semicolons ≠ []) →
      Sequence st (entries.flatMap written ++ closing :: rest) (entries.map tree) (closing :: rest)
  | [], _ => .done hclosing
  | e :: more, hbetween => by
    have hmore : Sequence st (more.flatMap written ++ closing :: rest) (more.map tree)
        (closing :: rest) := by
      refine sequence hclosing rest more fun e' he' => hbetween e' ?_
      rw [List.dropLast_cons_of_ne_nil (by rintro rfl; cases he')]
      exact List.mem_cons_of_mem _ he'
    -- without a semicolon behind it the entry is the last one, and the brace follows
    have hends : ∃ tag ∈ ends, headTag (e.semicolons ++ (more.flatMap written ++ closing :: rest)) =
        .ok (.text tag) := by
      cases hsemicolons : e.semicolons with
      | cons t signs => exact ⟨";", by decide, e.separate t (by simp [hsemicolons])⟩
      | nil =>
        cases more with
        | nil => exact ⟨"\x7d", by decide, hclosing⟩
        | cons e' more => exact absurd hsemicolons (hbetween e (by simp))
    have hread := e.read_before hends
    rw [List.flatMap_cons, written, List.append_assoc, List.append_assoc]
    exact .cons ((read_begins hread).stops (ends_not_openers st)) hread hends
      (hmore.semicolons e.separate)

end Entry

/-- **Semicolons in a block only separate its statements.** Let some tokens each be read as a
statement, before a semicolon and up to it. Put in braces, with one semicolon or more between any
two of them and with any number of semicolons before the first and behind the last, they are read
as the block of their trees, in their order. Nothing behind the closing brace is touched. Without
statements the block is empty. -/
theorem block_semicolons {opening closing : Token} (hopening : Is "\x7b" opening)
    (hclosing : Is "\x7d" closing) {leading : List Token} (hleading : ∀ t ∈ leading, Is ";" t)
    (entries : List (Entry st)) (hbetween : ∀ e ∈ entries.dropLast, e.semicolons ≠ [])
    (rest : List Token) :
    blockStatement.read st
        (opening :: (leading ++ (entries.flatMap Entry.written ++ closing :: rest))) =
      .ok (Tree.block (entries.map Entry.tree), rest) := by
  have hsequence := (Entry.sequence hclosing rest entries hbetween).semicolons hleading
  exact (read_block_iff hopening).2 ⟨_, closing, rfl, hclosing, hsequence⟩

/-- The statement `k=w` with two semicolons behind it, and an empty block with none. -/
def scatteredEntries : List (Entry .scopes) :=
  [{ tokens := [Token.make "<identifier>" (some (.text "k")) 3, Token.make "=" none 4,
      Token.make "<identifier>" (some (.text "w")) 5]
     tree := Tree.assign .scopes (Tree.leaf .scopes "<identifier>" (.text "k"))
      (Tree.leaf .scopes "<identifier>" (.text "w"))
     semicolons := [Token.make ";" none 6, Token.make ";" none 7]
     reads := ⟨Token.make ";" none 6, [], rfl, rfl⟩
     separate := by simp [Token.fields_make, Is] },
   { tokens := [Token.make "\x7b" none 8, Token.make "\x7d" none 9]
     tree := Tree.block []
     semicolons := []
     reads := ⟨Token.make ";" none 6, [], rfl, rfl⟩
     separate := by simp }]

/-- In `{;;k=w;;{}}` the block holds two statements, as in `{k=w;{}}`. -/
theorem block_semicolons_of_scattered :
    (∀ t ∈ [Token.make ";" none 1, Token.make ";" none 2], Is ";" t) ∧
    (∀ e ∈ scatteredEntries.dropLast, e.semicolons ≠ []) ∧
    blockStatement.read .scopes (Token.make "\x7b" none 0 ::
      ([Token.make ";" none 1, Token.make ";" none 2] ++
        (scatteredEntries.flatMap Entry.written ++ [Token.make "\x7d" none 10, Token.ending]))) =
      .ok (Tree.block [Tree.assign .scopes (Tree.leaf .scopes "<identifier>" (.text "k"))
        (Tree.leaf .scopes "<identifier>" (.text "w")), Tree.block []], [Token.ending]) := by
  have hleading : ∀ t ∈ [Token.make ";" none 1, Token.make ";" none 2], Is ";" t := by
    simp [Token.fields_make, Is]
  have hbetween : ∀ e ∈ scatteredEntries.dropLast, e.semicolons ≠ [] := by
    simp [scatteredEntries]
  have hopening : Is "\x7b" (Token.make "\x7b" none 0) := rfl
  have hclosing : Is "\x7d" (Token.make "\x7d" none 10) := rfl
  exact ⟨hleading, hbetween, block_semicolons hopening hclosing hleading _ hbetween _⟩

end Stepwise.Rule
