import Stepwise.Tree.Outline

/-!
# Sketches

What an outline shows of a tree is a sketch: labels, each with the sketches of its parts below it.
The text of a sketch keeps no more of it than the columns in which the labels start. That is
enough: two sketches whose labels neither start with a space nor hold a line end have different
texts (`Sketch.text_injective`).

- `Sketch.rows`: the labels from top to bottom, each with its column. The rows of a part end where
  a label stands no further to the right (`Sketch.rows_inj`);
- `Sketch.text`: the rows as text, one to a line;
- `Tree.below_eq`: a node's line with the texts of its parts below it is the text of a sketch.
-/

namespace Stepwise

/-- A label, and what stands below it. -/
inductive Sketch where
  | node (label : String) (parts : List Sketch)

namespace Sketch

/-- The label at the top. -/
def label : Sketch → String
  | .node label _ => label

/-! ## Rows -/

/-- A label and the column in which it starts. -/
structure Row where
  column : Nat
  label : String

mutual

/-- The rows of a sketch from a column on. -/
def rows (column : Nat) : Sketch → List Row
  | .node label parts => ⟨column, label⟩ :: rowsOf (column + 4) parts

/-- The rows of sketches that stand in one column. -/
def rowsOf (column : Nat) : List Sketch → List Row
  | [] => []
  | s :: ss => rows column s ++ rowsOf column ss

end

theorem rows_ne_nil (column : Nat) (s : Sketch) : s.rows column ≠ [] := by
  cases s with
  | node label parts => simp [rows]

/-- The rows start to the left of the column, if there are any. -/
def StartsLeft (column : Nat) (rest : List Row) : Prop :=
  ∀ row ∈ rest.head?, row.column < column

theorem StartsLeft.mono {column column' : Nat} {rest : List Row} (h : StartsLeft column rest)
    (hle : column ≤ column') : StartsLeft column' rest :=
  fun row hrow => Nat.lt_of_lt_of_le (h row hrow) hle

/-- What stands behind a part: another one in the same column, or what stands behind them all. -/
theorem startsLeft_rowsOf {column : Nat} (ss : List Sketch) {rest : List Row}
    (h : StartsLeft column rest) : StartsLeft (column + 1) (rowsOf column ss ++ rest) := by
  cases ss with
  | nil => exact h.mono (Nat.le_succ column)
  | cons s ss =>
    cases s with
    | node label parts =>
      intro row hrow
      simp only [rowsOf, rows, List.cons_append, List.head?_cons, Option.mem_some_iff] at hrow
      rw [← hrow]
      exact Nat.lt_succ_self column

/-- Parts start in their column, so they are not what stands to the left of it. -/
theorem not_startsLeft_rows {column : Nat} (s : Sketch) (rest : List Row) :
    ¬ StartsLeft column (s.rows column ++ rest) := by
  cases s with
  | node label parts =>
    intro h
    exact Nat.lt_irrefl column (h ⟨column, label⟩ (by simp [rows]))

mutual

/-- **The rows of a sketch determine it**, and where they end. -/
theorem rows_inj {column : Nat} {s s' : Sketch} {rest rest' : List Row}
    (hrest : StartsLeft (column + 1) rest) (hrest' : StartsLeft (column + 1) rest')
    (h : s.rows column ++ rest = s'.rows column ++ rest') : s = s' ∧ rest = rest' := by
  cases s with
  | node label parts =>
    cases s' with
    | node label' parts' =>
      simp only [rows, List.cons_append, List.cons.injEq, Row.mk.injEq, true_and] at h
      obtain ⟨rfl, hparts⟩ := h
      -- what is left of the label's column is left of the parts' column too
      have hle : column + 1 ≤ column + 4 := Nat.add_le_add_left (by decide) column
      obtain ⟨rfl, rfl⟩ := rowsOf_inj (hrest.mono hle) (hrest'.mono hle) hparts
      exact ⟨rfl, rfl⟩
termination_by structural s

/-- The rows of a list of parts determine the parts. -/
theorem rowsOf_inj {column : Nat} {ss ss' : List Sketch} {rest rest' : List Row}
    (hrest : StartsLeft column rest) (hrest' : StartsLeft column rest')
    (h : rowsOf column ss ++ rest = rowsOf column ss' ++ rest') : ss = ss' ∧ rest = rest' := by
  cases ss with
  | nil =>
    cases ss' with
    | nil => exact ⟨rfl, h⟩
    | cons s' ss' =>
      -- one list has ended, so the other goes on with rows that stand to the left
      have hleft : StartsLeft column (s'.rows column ++ (rowsOf column ss' ++ rest')) := by
        rw [← List.append_assoc]
        exact h ▸ hrest
      exact absurd hleft (not_startsLeft_rows s' _)
  | cons s ss =>
    cases ss' with
    | nil =>
      have hleft : StartsLeft column (s.rows column ++ (rowsOf column ss ++ rest)) := by
        rw [← List.append_assoc]
        exact h ▸ hrest'
      exact absurd hleft (not_startsLeft_rows s _)
    | cons s' ss' =>
      rw [rowsOf, rowsOf, List.append_assoc, List.append_assoc] at h
      -- the first sketch ends where the next one of its column starts, or with the list
      obtain ⟨rfl, hmore⟩ := rows_inj (startsLeft_rowsOf ss hrest) (startsLeft_rowsOf ss' hrest') h
      obtain ⟨rfl, rfl⟩ := rowsOf_inj hrest hrest' hmore
      exact ⟨rfl, rfl⟩
termination_by structural ss

end

/-! ## Text -/

/-- A row as a line of text. -/
def Row.line (row : Row) : String :=
  Tree.margin row.column ++ row.label

/-- The text of a sketch that starts in a column: its rows, one to a line. -/
def text (column : Nat) (s : Sketch) : String :=
  "\n".intercalate ((s.rows column).map Row.line)

/-- The label can be told from the space in front of it and from the next line. -/
structure IsLabel (label : String) : Prop where
  start : ∃ c cs, label.toList = c :: cs ∧ c ≠ ' '
  unbroken : '\n' ∉ label.toList

mutual

/-- All labels of the sketch can be told from what stands around them. -/
def Clear : Sketch → Prop
  | .node label parts => IsLabel label ∧ AllClear parts

/-- So can those of all of the sketches. -/
def AllClear : List Sketch → Prop
  | [] => True
  | s :: ss => s.Clear ∧ AllClear ss

end

theorem clear_leaf {label : String} (h : IsLabel label) : (node label []).Clear :=
  ⟨h, trivial⟩

mutual

/-- The rows of a clear sketch hold labels only. -/
theorem Clear.isLabel {column : Nat} {s : Sketch} (h : s.Clear) :
    ∀ row ∈ s.rows column, IsLabel row.label := by
  cases s with
  | node label parts =>
    intro row hrow
    obtain rfl | hrow := List.mem_cons.1 hrow
    · exact h.1
    · exact AllClear.isLabel h.2 row hrow
termination_by structural s

theorem AllClear.isLabel {column : Nat} {ss : List Sketch} (h : AllClear ss) :
    ∀ row ∈ rowsOf column ss, IsLabel row.label := by
  cases ss with
  | nil => simp [rowsOf]
  | cons s ss =>
    intro row hrow
    obtain hrow | hrow := List.mem_append.1 hrow
    · exact Clear.isLabel h.1 row hrow
    · exact AllClear.isLabel h.2 row hrow
termination_by structural ss

end

/-- Spaces in front of a text that starts with none can be counted. -/
theorem spaces_inj {n n' : Nat} {cs cs' : List Char} (hcs : cs.head? ≠ some ' ')
    (hcs' : cs'.head? ≠ some ' ')
    (h : List.replicate n ' ' ++ cs = List.replicate n' ' ' ++ cs') : n = n' ∧ cs = cs' := by
  induction n generalizing n' with
  | zero =>
    cases n' with
    | zero => exact ⟨rfl, h⟩
    | succ n' =>
      rw [List.replicate_zero, List.nil_append] at h
      exact absurd (by rw [h, List.replicate_succ]; rfl) hcs
  | succ n ih =>
    cases n' with
    | zero =>
      rw [List.replicate_zero, List.nil_append] at h
      exact absurd (by rw [← h, List.replicate_succ]; rfl) hcs'
    | succ n' =>
      rw [List.replicate_succ, List.replicate_succ, List.cons_append, List.cons_append] at h
      obtain ⟨rfl, rfl⟩ := ih (List.cons.inj h).2
      exact ⟨rfl, rfl⟩

theorem IsLabel.head?_ne {label : String} (h : IsLabel label) : label.toList.head? ≠ some ' ' := by
  obtain ⟨c, cs, hlabel, hc⟩ := h.start
  simpa [hlabel] using hc

theorem toList_line (row : Row) :
    row.line.toList = List.replicate row.column ' ' ++ row.label.toList := by
  simp [Row.line, Tree.margin]

/-- A line determines its row: the spaces are the column and the rest is the label. -/
theorem line_inj {row row' : Row} (hrow : IsLabel row.label) (hrow' : IsLabel row'.label)
    (h : row.line.toList = row'.line.toList) : row = row' := by
  rw [toList_line, toList_line] at h
  obtain ⟨hcolumn, hlabel⟩ := spaces_inj hrow.head?_ne hrow'.head?_ne h
  cases row
  cases row'
  cases hcolumn
  cases String.toList_inj.1 hlabel
  rfl

/-- Lines determine their rows, one by one. -/
theorem lines_inj : ∀ {rows rows' : List Row}, (∀ row ∈ rows, IsLabel row.label) →
    (∀ row ∈ rows', IsLabel row.label) →
    rows.map (fun row => row.line.toList) = rows'.map (fun row => row.line.toList) → rows = rows'
  | [], [], _, _, _ => rfl
  | [], _ :: _, _, _, h => by cases h
  | _ :: _, [], _, _, h => by cases h
  | row :: rows, row' :: rows', hrows, hrows', h => by
    rw [List.forall_mem_cons] at hrows hrows'
    obtain ⟨hline, hlines⟩ := List.cons.inj h
    rw [line_inj hrows.1 hrows'.1 hline, lines_inj hrows.2 hrows'.2 hlines]

/-- The lines of a clear sketch are found again in its text. -/
theorem splitOn_text {column : Nat} {s : Sketch} (hs : s.Clear) :
    (s.text column).toList.splitOn '\n' = (s.rows column).map fun row => row.line.toList := by
  rw [text, String.toList_intercalate, List.map_map]
  refine List.splitOn_intercalate '\n' ?_ (by simpa using rows_ne_nil column s)
  intro line hline
  obtain ⟨row, hrow, rfl⟩ := List.mem_map.1 hline
  have hlabel := (hs.isLabel row hrow).unbroken
  simpa [toList_line] using hlabel

/-- **The text of a sketch determines it.** -/
theorem text_injective {column : Nat} {s s' : Sketch} (hs : s.Clear) (hs' : s'.Clear)
    (h : s.text column = s'.text column) : s = s' := by
  -- from the text to its lines, from these to columns and labels, and from these to the sketch
  have hlines : (s.rows column).map (fun row => row.line.toList) =
      (s'.rows column).map fun row => row.line.toList := by
    rw [← splitOn_text hs, ← splitOn_text hs', h]
  have hrows : s.rows column = s'.rows column := lines_inj hs.isLabel hs'.isLabel hlines
  have hends : StartsLeft (column + 1) [] := by simp [StartsLeft]
  exact (rows_inj hends hends (congrArg (· ++ []) hrows)).1

/-! ## Nodes and their parts -/

/-- The rows of the parts, below what is there already. -/
theorem intercalate_rowsOf (column : Nat) (parts : List Sketch) {lines : List String}
    (hlines : lines ≠ []) :
    "\n".intercalate (lines ++ (rowsOf column parts).map Row.line) =
      parts.foldl (fun t p => t ++ "\n" ++ p.text column) ("\n".intercalate lines) := by
  induction parts generalizing lines with
  | nil => simp [rowsOf]
  | cons p ps ih =>
    have hp : (p.rows column).map Row.line ≠ [] := by simpa using rows_ne_nil column p
    rw [rowsOf, List.map_append, ← List.append_assoc, ih (by simp [hlines]),
      String.intercalate_append_of_ne_nil hlines hp]
    rfl

/-- The text of a sketch: its label, and the texts of its parts on the lines below. -/
theorem text_node (column : Nat) (label : String) (parts : List Sketch) :
    (node label parts).text column = parts.foldl (fun t p => t ++ "\n" ++ p.text (column + 4))
      (Tree.margin column ++ label) :=
  (intercalate_rowsOf (column + 4) parts (List.cons_ne_nil _ [])).trans
    (by rw [String.intercalate_singleton]; rfl)

end Sketch

namespace Tree

theorem below_append (head : String) (indent : Int) (xs ys : List Part) :
    below head indent (xs ++ ys) =
      below head indent xs >>= fun upper => below upper indent ys := by
  unfold below
  exact List.foldlM_append

/-- If every part has the text of a sketch, all of them are put below the line. -/
theorem below_eq_foldl {column : Nat} {parts : List Part} {shown : List Sketch}
    (h : parts.map (· ((column : Int) + 4)) = shown.map fun s => .ok (s.text (column + 4)))
    (head : String) : below head column parts =
      .ok (shown.foldl (fun t p => t ++ "\n" ++ p.text (column + 4)) head) := by
  induction parts generalizing shown head with
  | nil =>
    cases shown with
    | nil => rfl
    | cons => cases h
  | cons part parts ih =>
    cases shown with
    | nil => cases h
    | cons s shown =>
      obtain ⟨hpart, hparts⟩ := List.cons.inj h
      have hpart : part ((column : Int) + 4) = .ok (s.text (column + 4)) := hpart
      rw [below, List.foldlM_cons, hpart]
      exact ih hparts _

/-- **A node's line with the texts of its parts below it** is the text of a sketch. -/
theorem below_eq {column : Nat} {parts : List Part} {shown : List Sketch}
    (h : parts.map (· ((column : Int) + 4)) = shown.map fun s => .ok (s.text (column + 4)))
    (label : String) :
    below (margin column ++ label) column parts = .ok ((Sketch.node label shown).text column) := by
  rw [below_eq_foldl h, Sketch.text_node]

end Tree

end Stepwise
