import Stepwise.Proofs.Lexing
import Stepwise.Proofs.Sketches

/-!
# Outlines of programs

The outline of a program is the text of a sketch: a line for every node that it
shows, indented below the line of the node that it is part of. From `functions`
on a node is shown with those of its parts that are on a list of names. The
condition of an `if` or `while`, the statements of a block, the arguments of a
`print` and all parts of calls and functions have names that are not on it.

- `Tree.shown?`: what an outline shows of a node, its label and the parts below it.
  It is one step of the outline (`Tree.outline_of_shown`);
- `Sketch.Depicts`: a sketch has what an outline shows of a tree. Then the outline
  of the tree is its text (`Sketch.Depicts.outline`);
- `Expression.sketch`, `Statement.sketch`: what an outline shows of syntax;
- `Statement.depicts_tree`: so it is for every tree of the parser. The stages from
  `booleans` to `scopes` are left out: the first two show a truth value by its tag,
  the last two fail on a node without operands;
- `Statement.clear_sketch`: no label of a program starts with a space or holds a
  line end.
-/

namespace Stepwise

/-! ## Sketches of syntax -/

/-- What an outline shows of an expression. -/
def Expression.sketch : Expression → Sketch
  | .number v => .node v.value.written []
  | .boolean b => .node (Value.ofTruth b).written []
  | .name x => .node x.text []
  | .negate e => .node "negate" [e.sketch]
  | .not e => .node "not" [e.sketch]
  | .binary op l r => .node op.sign [l.sketch, r.sketch]
  | .call _ _ => .node "<function_call>" []
  | .function _ _ => .node "function" []

/-- What an outline shows of a statement. -/
def Statement.sketch : Statement → Sketch
  | .block _ => .node "block" []
  | .branch _ s none => .node "if" [s.sketch]
  | .branch _ s (some a) => .node "if" [s.sketch, a.sketch]
  | .loop _ s => .node "while" [s.sketch]
  | .giveBack none => .node "return" []
  | .giveBack (some e) => .node "return" [e.sketch]
  | .print _ => .node "print" []
  | .assign x e => .node "=" [.node x.text [], e.sketch]
  | .expression e => e.sketch

/-! ## What is shown of a node -/

/-- The fields with these names, in the order of the names, as far as there are any. -/
def Fields.pick (names : List String) (fields : Fields) : Fields :=
  names.filterMap fun name => (Fields.get? (.text name) fields).map (Key.text name, ·)

namespace Tree

variable {st : Stage}

/-- What an outline shows of a node: its label, and the parts below it with the names of their
fields. Nothing is shown of a leaf whose value cannot be written, nor up to `scopes` of a node
that lacks an operand. -/
def shown? (st : Stage) : Tree → Option (String × Fields)
  | .record fields =>
    match Fields.get? "tag" fields with
    | some (.text tag) =>
      if (leafTags st).contains tag then
        (Fields.get? "value" fields).bind fun v => v.print.toOption.map fun label => (label, [])
      else if st.has .functions then
        some (tag, Fields.pick shownParts fields)
      else
        (Fields.get? "left" fields).bind fun left => (Fields.get? "right" fields).map fun right =>
          (tag, [(.text "left", left), (.text "right", right)].filter fun part => part.2.truthy)
    | _ => none
  | _ => none

/-- The outline below a name is that of the field with the name, if there is one. -/
theorem lookup_outlines (name : Key) (fields : Fields) :
    List.lookup name (outlines st fields) =
      (Fields.get? name fields).map fun t i => outline st t i := by
  induction fields with
  | nil => rfl
  | cons field rest ih =>
    obtain ⟨key, t⟩ := field
    by_cases hkey : key = name
    · simp [outlines, Fields.get?, hkey]
    · have hbeq : (name == key) = false := by simpa using Ne.symm hkey
      simp [outlines, Fields.get?, List.lookup_cons, hkey, hbeq, ih]

/-- From `functions` on the parts are those on the list that the node has. -/
theorem layout_functions (hst : st.has .functions = true) (tag : String) (fields : Fields)
    (indent : Int) : layout st tag fields (outlines st fields) indent =
      below (margin indent ++ tag) indent
        ((Fields.pick shownParts fields).map fun part i => outline st part.2 i) := by
  rw [layout, if_pos hst, Fields.pick, List.map_filterMap]
  congr 1
  refine List.filterMap_congr fun name _ => ?_
  rw [lookup_outlines, Option.map_map]
  rfl

/-- A field that a line shows as an operand: one outline, or none for a value that counts as
absent. -/
theorem operand_eq {fields : Fields} {name : String} {t : Tree}
    (hget : Fields.get? name fields = some t) :
    operand fields (outlines st fields) name =
      .ok (([(Key.text name, t)].filter fun part => part.2.truthy).map fun part i =>
        outline st part.2 i) := by
  cases ht : Value.truthy t <;> simp [operand, lookup_outlines, hget, ht]

/-- Up to `scopes` the parts are the operands that are not empty. -/
theorem layout_operands (hst : st.has .functions = false) (tag : String) {fields : Fields}
    {left right : Tree} (hleft : Fields.get? "left" fields = some left)
    (hright : Fields.get? "right" fields = some right) (indent : Int) :
    layout st tag fields (outlines st fields) indent = below (margin indent ++ tag) indent
      (([(Key.text "left", left), (Key.text "right", right)].filter fun part => part.2.truthy).map
        fun part i => outline st part.2 i) := by
  have hboth : [(Key.text "left", left), (Key.text "right", right)].filter (·.2.truthy) =
      [(Key.text "left", left)].filter (·.2.truthy) ++
        [(Key.text "right", right)].filter (·.2.truthy) :=
    List.filter_append [_] [_]
  rw [layout, if_neg (by simp [hst]), operand_eq hleft, operand_eq hright, hboth, List.map_append,
    below_append]
  rfl

/-- **One step of an outline**: the line of a node, and below it the outlines of its parts. -/
theorem outline_of_shown {t : Tree} {label : String} {parts : Fields}
    (h : t.shown? st = some (label, parts)) (indent : Int) :
    outline st t indent = below (margin indent ++ label) indent
      (parts.map fun part i => outline st part.2 i) := by
  cases t with
  | record fields =>
    rw [shown?] at h
    rw [outline]
    split at h
    · next tag htag =>
      rw [htag]
      dsimp only
      -- a leaf shows its value, and the others their tag with the parts below it
      split_ifs at h ⊢ with hleaf hst
      · obtain ⟨v, hv, hlabel⟩ := Option.bind_eq_some_iff.1 h
        rw [hv]
        -- a value without a text is not shown, against `h`
        cases hprint : v.print with
        | error => simp [hprint, Except.toOption] at hlabel
        | ok text =>
          obtain ⟨rfl, rfl⟩ : text = label ∧ [] = parts := by
            simpa [hprint, Except.toOption] using hlabel
          simp only [hprint]
          rfl
      · cases h
        exact layout_functions hst _ _ _
      · obtain ⟨left, hleft, hrest⟩ := Option.bind_eq_some_iff.1 h
        obtain ⟨right, hright, hparts⟩ := Option.map_eq_some_iff.1 hrest
        cases hparts
        exact layout_operands (by simpa using hst) _ hleft hright _
    · cases h
  | null | bool | int | float | text | list => cases h

/-- A leaf is shown by its value. -/
theorem shown?_leaf {tag : String} {v : Value} (htag : tag ∈ leafTags st)
    (hv : v.unwritable = false) : (leaf st tag v).shown? st = some (v.written, []) := by
  have hprint : v.print = .ok v.written := by simp [Value.print, hv]
  unfold leaf
  split <;> simp [node, uniform, shown?, Fields.get?, htag, hprint, Except.toOption]

/-- From `functions` on a node is shown with those of its parts that are on the list. -/
theorem shown?_node (hst : st.has .functions = true) {tag : String} (htag : tag ∉ leafTags st)
    (parts : Fields) : (node tag parts).shown? st =
      some (tag, Fields.pick shownParts parts) := by
  have hparts : Fields.pick shownParts (("tag", .text tag) :: parts) =
      Fields.pick shownParts parts := by
    refine List.filterMap_congr fun name hname => ?_
    have hne : Key.text "tag" ≠ name := by
      rintro ⟨⟩
      exact absurd hname (by decide)
    rw [Fields.get?, if_neg hne]
  have hget : Fields.get? "tag" (("tag", .text tag) :: parts) = some (.text tag) := rfl
  rw [← hparts]
  simp [node, shown?, hget, htag, hst]

/-- Up to `scopes` a node is shown with its two operands. -/
theorem shown?_uniform (hst : st.has .functions = false) {tag : String} {left right : Tree}
    (htag : tag ∉ leafTags st) (hleft : Value.truthy left = true)
    (hright : Value.truthy right = true) : (uniform tag .null left right).shown? st =
      some (tag, [(.text "left", left), (.text "right", right)]) := by
  simp [uniform, node, shown?, Fields.get?, htag, hst, hleft, hright]

end Tree

/-! ## Sketches of trees -/

namespace Sketch

variable {st : Stage}

mutual

/-- The sketch has the label and the parts of the tree, as far as an outline shows them. -/
def Depicts (st : Stage) : Sketch → Tree → Prop
  | .node label ss, t => ∃ parts, t.shown? st = some (label, parts) ∧ DepictsAll st ss parts

/-- So have all of the sketches, one for each part. -/
def DepictsAll (st : Stage) : List Sketch → Fields → Prop
  | [], [] => True
  | s :: ss, (_, t) :: parts => s.Depicts st t ∧ DepictsAll st ss parts
  | _, _ => False

end

mutual

/-- **The outline of a tree is the text of its sketch.** -/
theorem Depicts.outline {s : Sketch} {t : Tree} (h : s.Depicts st t) (column : Nat) :
    t.outline st column = .ok (s.text column) := by
  cases s with
  | node label ss =>
    obtain ⟨parts, hshown, hparts⟩ := h
    rw [Tree.outline_of_shown hshown]
    refine Tree.below_eq ?_ label
    rw [List.map_map]
    exact DepictsAll.outline hparts (column + 4)
termination_by structural s

/-- The outlines of all parts are the texts of their sketches. -/
theorem DepictsAll.outline {ss : List Sketch} {parts : Fields} (h : DepictsAll st ss parts)
    (column : Nat) :
    parts.map (fun part => Tree.outline st part.2 column) =
      ss.map fun s => .ok (s.text column) := by
  cases ss with
  | nil =>
    cases parts with
    | nil => rfl
    | cons => exact h.elim
  | cons s ss =>
    cases parts with
    | nil => exact h.elim
    | cons part parts =>
      rw [List.map_cons, List.map_cons, Depicts.outline h.1, DepictsAll.outline h.2]
termination_by structural ss

end

theorem depicts_leaf {tag : String} {v : Value} (htag : tag ∈ Tree.leafTags st)
    (hv : v.unwritable = false) : (node v.written []).Depicts st (Tree.leaf st tag v) :=
  ⟨[], Tree.shown?_leaf htag hv, trivial⟩

/-- From `functions` on a node is shown by its tag, with the parts whose names are on the list. -/
theorem depicts_node (hst : st.has .functions = true) {tag : String} {fields : Fields}
    (htag : tag ∉ Tree.leafTags st) (parts : Fields) {ss : List Sketch}
    (hparts : Fields.pick Tree.shownParts fields = parts) (h : DepictsAll st ss parts) :
    (node tag ss).Depicts st (Tree.node tag fields) :=
  ⟨parts, hparts ▸ Tree.shown?_node hst htag fields, h⟩

/-- Before `functions` a node is shown by its tag, with both operands. -/
theorem depicts_uniform (hst : st.has .functions = false) {tag : String} {left right : Tree}
    {a b : Sketch} (htag : tag ∉ Tree.leafTags st) (hleft : Value.truthy left = true)
    (hright : Value.truthy right = true) (ha : a.Depicts st left) (hb : b.Depicts st right) :
    (node tag [a, b]).Depicts st (Tree.uniform tag .null left right) :=
  ⟨_, Tree.shown?_uniform hst htag hleft hright, ha, hb, trivial⟩

end Sketch

/-! ## Trees of syntax -/

/-- The stages at which every tree of the parser has the text of its sketch as outline. -/
def Stage.outlines (st : Stage) : Bool :=
  st.has .functions || !st.has .booleans

namespace Stage

variable {st : Stage}

theorem numberTag_mem_leafTags (st : Stage) : st.numberTag ∈ Tree.leafTags st := by
  cases st <;> decide

theorem nameTag_mem_leafTags (hst : st.has .assignments = true) :
    st.nameTag ∈ Tree.leafTags st := by
  cases st <;> first | decide | cases hst

theorem booleanTag_mem_leafTags (hst : st.has .blocks = true) :
    st.booleanTag ∈ Tree.leafTags st := by
  cases st <;> first | decide | cases hst

/-- The tags of all other nodes. -/
theorem not_mem_leafTags (st : Stage) : ∀ tag ∈ ["negate", "not", "<function_call>", "function",
    "block", "if", "while", "return", "print", "="], tag ∉ Tree.leafTags st := by
  cases st <;> decide

theorem sign_not_mem_leafTags (st : Stage) (op : Operator) : op.sign ∉ Tree.leafTags st := by
  cases st <;> cases op <;> decide

theorem functions_of_outlines (h : st.outlines = true) (hst : st.has .booleans = true) :
    st.has .functions = true := by
  simpa [outlines, hst] using h

end Stage

theorem Expression.truthy_tree (st : Stage) (e : Expression) : Value.truthy (e.tree st) = true := by
  have hsingle : (e.tree st).Single := e.tree_single
  obtain ⟨fields, htree, hne, -⟩ := hsingle
  rw [htree]
  simpa [Value.truthy] using hne

theorem Value.unwritable_ofTruth (b : Bool) : (Value.ofTruth b).unwritable = false := by
  have hsmall : (if b then 1 else 0 : Int).natAbs < Nat.pow 10 1 := by cases b <;> decide
  exact Lexeme.writable_int (by decide) hsmall

section Depicts

variable {st : Stage}

theorem Identifier.depicts_tree (hst : st.has .assignments = true) (x : Identifier) :
    (Sketch.node x.text []).Depicts st (x.tree st) :=
  Sketch.depicts_leaf (st.nameTag_mem_leafTags hst) rfl

/-- A node with two operands, in which the two ways to show a node agree. -/
theorem Sketch.depicts_operands {tag : String} {left right : Tree} {a b : Sketch}
    {fields : Fields} {name name' : String} (htag : tag ∉ Tree.leafTags st)
    (hleft : Value.truthy left = true) (hright : Value.truthy right = true)
    (hparts : Fields.pick Tree.shownParts fields = [(.text name, left), (.text name', right)])
    (ha : a.Depicts st left) (hb : b.Depicts st right) (hst : st.outlines = true) :
    (node tag [a, b]).Depicts st
      (if st.has .blocks then Tree.node tag fields else Tree.uniform tag .null left right) := by
  split
  · have hfunctions : st.has .functions = true :=
      Stage.functions_of_outlines hst (Stage.has_of_rank_le ‹_› (by decide))
    exact depicts_node hfunctions htag _ hparts ⟨ha, hb, trivial⟩
  · have hfunctions : st.has .functions = false := by
      by_contra h
      exact absurd (Stage.has_of_rank_le (by simpa using h) (by decide)) ‹¬ st.has .blocks = true›
    exact depicts_uniform hfunctions htag hleft hright ha hb

/-- **The sketch of an expression depicts its tree.** -/
theorem Expression.depicts_tree (hst : st.outlines = true) {e : Expression} (he : e.Fits st) :
    e.sketch.Depicts st (e.tree st) := by
  -- beyond assignments only the stages from `functions` on are left
  have functions : st.has .booleans = true → st.has .functions = true :=
    Stage.functions_of_outlines hst
  have blocks : st.has .functions = true → st.has .blocks = true :=
    fun h => Stage.has_of_rank_le h (by decide)
  cases e with
  | number v => exact Sketch.depicts_leaf st.numberTag_mem_leafTags he
  | boolean b =>
    exact Sketch.depicts_leaf (Stage.booleanTag_mem_leafTags (blocks (functions he)))
      (Value.unwritable_ofTruth b)
  | name x => exact x.depicts_tree he.1
  | negate e =>
    have ih := Expression.depicts_tree hst he.2
    rw [tree, Tree.unary, if_pos (blocks (functions he.1))]
    exact Sketch.depicts_node (functions he.1) (st.not_mem_leafTags _ (by decide))
      [("value", e.tree st)] rfl ⟨ih, trivial⟩
  | not e =>
    have ih := Expression.depicts_tree hst he.2
    rw [tree, Tree.unary, if_pos (blocks (functions he.1))]
    exact Sketch.depicts_node (functions he.1) (st.not_mem_leafTags _ (by decide))
      [("value", e.tree st)] rfl ⟨ih, trivial⟩
  | binary op l r =>
    have hl := Expression.depicts_tree hst he.2.1
    have hr := Expression.depicts_tree hst he.2.2
    exact Sketch.depicts_operands (st.sign_not_mem_leafTags op) (l.truthy_tree st)
      (r.truthy_tree st) rfl hl hr hst
  | call f es =>
    exact Sketch.depicts_node he.1 (st.not_mem_leafTags _ (by decide)) [] (by split <;> rfl) trivial
  | function xs ss =>
    exact Sketch.depicts_node he.1 (st.not_mem_leafTags _ (by decide)) [] rfl trivial
termination_by structural e

/-- **The sketch of a statement depicts its tree.** -/
theorem Statement.depicts_tree (hst : st.outlines = true) {s : Statement} (hs : s.Fits st) :
    s.sketch.Depicts st (s.tree st) := by
  have functions : st.has .conditions = true → st.has .functions = true :=
    fun h => Stage.functions_of_outlines hst (Stage.has_of_rank_le h (by decide))
  have blocks : st.has .functions = true → st.has .blocks = true :=
    fun h => Stage.has_of_rank_le h (by decide)
  have conditions : st.has .blocks = true → st.has .conditions = true :=
    fun h => Stage.has_of_rank_le h (by decide)
  cases s with
  | block ss =>
    have hfunctions := functions (conditions hs.1)
    -- a block has other fields if it has more statements, but none that is shown
    obtain _ | ⟨_, _ | ⟨_, _⟩⟩ := ss <;>
      exact Sketch.depicts_node hfunctions (st.not_mem_leafTags _ (by decide)) [] rfl trivial
  | branch c s a =>
    cases a with
    | none =>
      have hfunctions := functions hs.1
      have ih := Statement.depicts_tree hst hs.2.2
      rw [tree, Tree.branch, if_pos (blocks hfunctions)]
      exact Sketch.depicts_node hfunctions (st.not_mem_leafTags _ (by decide))
        [("then", s.tree st)] rfl ⟨ih, trivial⟩
    | some a =>
      have hfunctions := functions (conditions hs.1)
      have ih := Statement.depicts_tree hst hs.2.2.1
      have iha := Statement.depicts_tree hst hs.2.2.2
      rw [tree, Tree.branch, if_pos hs.1]
      exact Sketch.depicts_node hfunctions (st.not_mem_leafTags _ (by decide))
        [("then", s.tree st), ("else", a.tree st)] rfl ⟨ih, iha, trivial⟩
  | loop c s =>
    have hfunctions := functions hs.1
    have ih := Statement.depicts_tree hst hs.2.2
    rw [tree, Tree.loop, if_pos (blocks hfunctions)]
    exact Sketch.depicts_node hfunctions (st.not_mem_leafTags _ (by decide))
      [("do", s.tree st)] rfl ⟨ih, trivial⟩
  | giveBack v =>
    cases v with
    | none => exact Sketch.depicts_node hs (st.not_mem_leafTags _ (by decide)) [] rfl trivial
    | some e =>
      have he := Expression.depicts_tree hst hs.2
      exact Sketch.depicts_node hs.1 (st.not_mem_leafTags _ (by decide)) [("value", e.tree st)] rfl
        ⟨he, trivial⟩
  | print es => exact Sketch.depicts_node hs.1 (st.not_mem_leafTags _ (by decide)) [] rfl trivial
  | assign x e =>
    have hx := x.depicts_tree hs.1
    have he := Expression.depicts_tree hst hs.2.2
    exact Sketch.depicts_operands (st.not_mem_leafTags _ (by decide))
      (Expression.truthy_tree st (.name x)) (e.truthy_tree st) rfl hx he hst
  | expression e => exact Expression.depicts_tree hst hs
termination_by structural s

/-- The outline of a statement is the text of its sketch. -/
theorem Statement.outline_tree (hst : st.outlines = true) {s : Statement} (hs : s.Fits st)
    (column : Nat) : Tree.outline st (s.tree st) column = .ok (s.sketch.text column) :=
  (Statement.depicts_tree hst hs).outline column

end Depicts

/-! ## Labels -/

namespace Sketch.IsLabel

/-- Characters of a kind to which neither the space nor the line end belongs make a label. -/
theorem of_all (p : Char → Bool) (hspace : p ' ' = false) (hbreak : p '\n' = false)
    {label : String} (hne : label.toList ≠ []) (h : ∀ c ∈ label.toList, p c = true) :
    IsLabel label := by
  obtain ⟨c, cs, hlabel⟩ := List.exists_cons_of_ne_nil hne
  refine ⟨⟨c, cs, hlabel, ?_⟩, fun hmem => ?_⟩
  · rintro rfl
    have hc := h ' ' (by simp [hlabel])
    rw [hspace] at hc
    cases hc
  · have hc := h '\n' hmem
    rw [hbreak] at hc
    cases hc

/-- The tags of nodes that are not operators are labels. -/
theorem of_word : ∀ word ∈ ["negate", "not", "<function_call>", "function", "block", "if", "while",
    "return", "print", "="], IsLabel word := by
  simp only [List.forall_mem_cons, List.not_mem_nil, false_implies, implies_true, and_true]
  refine ⟨?_, ?_, ?_, ?_, ?_, ?_, ?_, ?_, ?_, ?_⟩ <;> exact ⟨⟨_, _, rfl, by decide⟩, by decide⟩

theorem of_sign (op : Operator) : IsLabel op.sign := by
  cases op <;> exact ⟨⟨_, _, rfl, by decide⟩, by decide⟩

end Sketch.IsLabel

/-- An identifier has a first character, and only characters of names behind it. -/
theorem Identifier.exists_start (x : Identifier) : ∃ c cs, x.text.toList = c :: cs ∧
    Lexeme.isNameStart c = true ∧ ∀ d ∈ cs, Lexeme.isNamePart d = true := by
  have hspelled := x.spelled
  cases htext : x.text.toList with
  | nil =>
    rw [htext] at hspelled
    cases hspelled
  | cons c cs =>
    rw [htext] at hspelled
    simp only [Lexeme.isName, Bool.and_eq_true, List.all_eq_true] at hspelled
    exact ⟨c, cs, rfl, hspelled⟩

theorem Lexeme.isNamePart_of_isNameStart {c : Char} (h : isNameStart c = true) :
    isNamePart c = true := by
  obtain hletter | hbar := Bool.or_eq_true_iff.1 h
  · exact Bool.or_eq_true_iff.2 (.inl (Bool.or_eq_true_iff.2 (.inl hletter)))
  · exact Bool.or_eq_true_iff.2 (.inr hbar)

/-- An identifier is a label: no character of a name is a space or a line end. -/
theorem Identifier.isLabel (x : Identifier) : Sketch.IsLabel x.text := by
  obtain ⟨c, cs, htext, hc, hcs⟩ := x.exists_start
  refine .of_all Lexeme.isNamePart (by decide) (by decide) (by simp [htext]) ?_
  rw [htext]
  exact List.forall_mem_cons.2 ⟨Lexeme.isNamePart_of_isNameStart hc, hcs⟩

theorem Value.toList_written_ofNat (m : Nat) :
    (Value.int (.ofNat m)).written.toList = Nat.toDigits 10 m :=
  Nat.toList_repr

theorem Value.toList_written_negSucc (m : Nat) :
    (Value.int (.negSucc m)).written.toList = '-' :: Nat.toDigits 10 (m + 1) := by
  simp [Value.written, Value.shown, toString, Int.repr]

/-- An integer is written as digits, behind a minus if it is negative. -/
theorem Value.exists_written (n : Int) : ∃ c cs, (Value.int n).written.toList = c :: cs ∧
    (c.isDigit = true ∨ c = '-') ∧ ∀ d ∈ cs, d.isDigit = true := by
  have digits : ∀ (m : Nat), ∀ d ∈ Nat.toDigits 10 m, d.isDigit = true :=
    fun m d hd => Nat.isDigit_of_mem_toDigits (by decide) (by decide) hd
  cases n with
  | ofNat m =>
    obtain ⟨c, cs, hm⟩ := List.exists_cons_of_ne_nil (Nat.toDigits_ne_nil (n := m) (b := 10))
    refine ⟨c, cs, (Value.toList_written_ofNat m).trans hm, .inl (digits m c (by simp [hm])), ?_⟩
    exact fun d hd => digits m d (by simp [hm, hd])
  | negSucc m => exact ⟨'-', _, Value.toList_written_negSucc m, .inr rfl, digits (m + 1)⟩

/-! ### Numbers -/

namespace Number

/-- A digit, or a sign that is written among the digits of a number. -/
def isMark (c : Char) : Bool :=
  c.isDigit || ['.', 'e', '+', '-'].contains c

theorem isMark_of_isDigit {c : Char} (h : c.isDigit = true) : isMark c = true := by
  simp [isMark, h]

theorem isMark_digits (n : Nat) : ∀ c ∈ (toString n).toList, isMark c = true := by
  intro c hc
  rw [Nat.toString_eq_repr, Nat.toList_repr] at hc
  exact isMark_of_isDigit (Nat.isDigit_of_mem_toDigits (by decide) (by decide) hc)

namespace Decimal

variable {digits : List Char} (h : ∀ c ∈ digits, isMark c = true) (point : Int)
include h

/-- The positional layout adds zeros and a point to the digits. -/
theorem isMark_positional : ∀ c ∈ positional digits point, isMark c = true := by
  have hzeros : ∀ n, ∀ c ∈ zeroText n, isMark c = true := by
    intro n c hc
    rw [List.eq_of_mem_replicate hc]
    rfl
  unfold positional
  -- the point stands before all digits, behind them or among them
  split_ifs
  · simpa [or_imp, forall_and, show isMark '0' = true from rfl, show isMark '.' = true from rfl]
      using ⟨hzeros _, h⟩
  · simp only [List.mem_append]
    rintro c ((hc | hc) | hc)
    · exact h c hc
    · exact hzeros _ c hc
    · exact List.all_eq_true.1 (show ['.', '0'].all isMark = true from rfl) c hc
  · simp only [List.mem_append, List.mem_cons]
    rintro c (hc | rfl | hc)
    · exact h c (List.mem_of_mem_take hc)
    · rfl
    · exact h c (List.mem_of_mem_drop hc)

/-- The exponential layout adds a point, the letter, a sign and the digits of the exponent. -/
theorem isMark_exponential : ∀ c ∈ exponential digits point, isMark c = true := by
  have hexponent := isMark_digits (point - 1).natAbs
  intro c hc
  simp only [exponential, List.mem_append, List.mem_cons] at hc
  -- the first digit, the others behind a point, the letter, the sign and the exponent
  rcases hc with (hc | hc) | rfl | rfl | hc
  · exact h c (List.mem_of_mem_take hc)
  · split at hc
    · cases hc
    · obtain rfl | hc := List.mem_cons.1 hc
      · rfl
      · exact h c (List.mem_of_mem_drop hc)
  · rfl
  · split <;> rfl
  · split at hc
    · obtain rfl | hc := List.mem_cons.1 hc
      · rfl
      · exact hexponent c hc
    · exact hexponent c hc

omit h in
theorem isMark_layout (d : Decimal) : ∀ c ∈ d.layout, isMark c = true := by
  unfold layout
  dsimp only
  split
  · exact isMark_positional (isMark_digits d.digits) _
  · exact isMark_exponential (isMark_digits d.digits) _

omit h in
theorem layout_ne_nil (d : Decimal) : d.layout ≠ [] := by
  unfold layout positional exponential
  dsimp only
  split_ifs <;> simp

end Decimal

/-- A double is written with digits and signs, or by one of three words. -/
theorem written_cases (x : Float) : written x ∈ ["nan", "-inf", "inf"] ∨
    (written x).toList ≠ [] ∧ ∀ c ∈ (written x).toList, isMark c = true := by
  unfold written
  split
  · refine .inl ?_
    split_ifs <;> simp
  · next b _ =>
    refine .inr ?_
    -- a sign in front does not matter
    have hmagnitude : ∀ cs : List Char, cs ≠ [] → (∀ c ∈ cs, isMark c = true) →
        (String.ofList (if b.negative then '-' :: cs else cs)).toList ≠ [] ∧
          ∀ c ∈ (String.ofList (if b.negative then '-' :: cs else cs)).toList,
            isMark c = true := by
      intro cs hne hcs
      rw [String.toList_ofList]
      split_ifs
      · exact ⟨List.cons_ne_nil _ _, List.forall_mem_cons.2 ⟨rfl, hcs⟩⟩
      · exact ⟨hne, hcs⟩
    refine hmagnitude _ ?_ ?_
    · split_ifs
      · simp
      · exact Decimal.layout_ne_nil _
    · split_ifs
      · exact List.all_eq_true.1 rfl
      · exact Decimal.isMark_layout _

end Number

/-- An integer is a label. -/
theorem Value.isLabel_int (n : Int) : Sketch.IsLabel (Value.int n).written := by
  obtain ⟨c, cs, htext, hc, hcs⟩ := Value.exists_written n
  have hfirst : Number.isMark c = true := by
    obtain hdigit | rfl := hc
    · exact Number.isMark_of_isDigit hdigit
    · rfl
  refine .of_all Number.isMark (by decide) (by decide) (by simp [htext]) ?_
  rw [htext]
  exact List.forall_mem_cons.2 ⟨hfirst, fun d hd => Number.isMark_of_isDigit (hcs d hd)⟩

/-- A double is a label, whether it is written with digits or by a word. -/
theorem Value.isLabel_float (x : Float) : Sketch.IsLabel (Value.float x).written := by
  obtain hword | ⟨hne, hmarks⟩ := Number.written_cases x
  · have hall : ∀ word ∈ ["nan", "-inf", "inf"], Sketch.IsLabel word := by
      simp only [List.forall_mem_cons, List.not_mem_nil, false_implies, implies_true, and_true]
      refine ⟨?_, ?_, ?_⟩ <;> exact ⟨⟨_, _, rfl, by decide⟩, by decide⟩
    exact hall _ hword
  · exact .of_all Number.isMark (by decide) (by decide) hne hmarks

/-! ### Sketches of syntax -/

/-- The labels of an expression can be told from what stands around them. -/
theorem Expression.clear_sketch (e : Expression) : e.sketch.Clear := by
  cases e with
  | number v =>
    cases v with
    | int n => exact Sketch.clear_leaf (Value.isLabel_int n)
    | float x => exact Sketch.clear_leaf (Value.isLabel_float x)
  | boolean b => exact Sketch.clear_leaf (Value.isLabel_int _)
  | name x => exact Sketch.clear_leaf x.isLabel
  | negate e | not e => exact ⟨.of_word _ (by decide), e.clear_sketch, trivial⟩
  | binary op l r => exact ⟨.of_sign op, l.clear_sketch, r.clear_sketch, trivial⟩
  | call | function => exact Sketch.clear_leaf (.of_word _ (by decide))
termination_by structural e

theorem Statement.clear_sketch (s : Statement) : s.sketch.Clear := by
  cases s with
  | block | print => exact Sketch.clear_leaf (.of_word _ (by decide))
  | branch c s a =>
    cases a with
    | none => exact ⟨.of_word _ (by decide), s.clear_sketch, trivial⟩
    | some a => exact ⟨.of_word _ (by decide), s.clear_sketch, a.clear_sketch, trivial⟩
  | loop c s => exact ⟨.of_word _ (by decide), s.clear_sketch, trivial⟩
  | giveBack e =>
    cases e with
    | none => exact Sketch.clear_leaf (.of_word _ (by decide))
    | some e => exact ⟨.of_word _ (by decide), e.clear_sketch, trivial⟩
  | assign x e =>
    exact ⟨.of_word _ (by decide), Sketch.clear_leaf x.isLabel, e.clear_sketch, trivial⟩
  | expression e => exact e.clear_sketch
termination_by structural s

end Stepwise
