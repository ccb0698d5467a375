import Mathlib.Data.List.Forall2
import Mathlib.Data.List.Nodup
import Stepwise.Proofs.Outlines
import Stepwise.Proofs.ParserImage

/-!
# The layout of outlines

An outline has a line for every node that it shows, and nothing else. A node has
its place in the tree, a path of field names from the root; the line of a place
is the label of the node there, four columns further to the right for every name
of the path. The line of a node comes before those of its parts. How far the
outline is indented makes no other difference: so many spaces more stand in front
of every line.

- `Tree.nodeAt?`: the node at a place, if there is one that is shown;
- `Tree.Listed`: a list of all places of a tree, none twice, parents first;
- `Sketch.Depicts.exists_listed`: the rows of a sketch stand at the places of the
  tree that it depicts;
- `Sketch.indented_text`: a sketch from a column further to the right.
-/

namespace Stepwise

/-! ## Places -/

namespace Tree

variable {st : Stage}

/-- The node at a place: the path of field names goes through parts that outlines show. -/
def nodeAt? (st : Stage) : Tree → List Key → Option Tree
  | t, [] => some t
  | t, name :: path => (t.shown? st).bind fun shown =>
      (Fields.get? name shown.2).bind fun part => nodeAt? st part path

/-- The node at a place below a node with these parts. -/
def nodeBelow? (st : Stage) (parts : Fields) : List Key → Option Tree
  | [] => none
  | name :: path => (Fields.get? name parts).bind fun part => nodeAt? st part path

/-- All places at which there is a node, none of them twice, and each behind the place that it is
part of. -/
structure Listed (node? : List Key → Option Tree) (places : List (List Key)) : Prop where
  nodup : places.Nodup
  mem_iff : ∀ path, path ∈ places ↔ (node? path).isSome = true
  parent_first : ∀ path name, path ∈ places → path ++ [name] ∈ places →
    [path, path ++ [name]].Sublist places

theorem nodeAt?_cons {t : Tree} {label : String} {parts : Fields}
    (h : t.shown? st = some (label, parts)) (name : Key) (path : List Key) :
    nodeAt? st t (name :: path) = nodeBelow? st parts (name :: path) := by
  rw [nodeAt?, h]
  rfl

/-- A path in two steps. -/
theorem nodeAt?_append (t : Tree) (path more : List Key) :
    nodeAt? st t (path ++ more) = (nodeAt? st t path).bind fun node => nodeAt? st node more := by
  induction path generalizing t with
  | nil => rfl
  | cons name path ih => simp only [List.cons_append, nodeAt?, Option.bind_assoc, ih]

theorem nodup_shownParts : shownParts.Nodup := by
  decide

/-- The parts of a node have different names. -/
theorem nodup_names {t : Tree} {label : String} {parts : Fields}
    (h : t.shown? st = some (label, parts)) : (Fields.names parts).Nodup := by
  cases t with
  | record fields =>
    rw [shown?] at h
    split at h
    · split_ifs at h with hleaf hst
      · obtain ⟨v, -, hlabel⟩ := Option.bind_eq_some_iff.1 h
        obtain ⟨text, -, heq⟩ := Option.map_eq_some_iff.1 hlabel
        cases heq
        exact List.nodup_nil
      -- from `functions` on the names are those of a list without repetitions
      · cases h
        rw [Fields.names, Fields.pick, List.map_filterMap]
        refine List.Nodup.filterMap (fun name name' shown hname hname' => ?_) nodup_shownParts
        rw [Option.map_map, Option.mem_def, Option.map_eq_some_iff] at hname hname'
        obtain ⟨_, -, rfl⟩ := hname
        obtain ⟨_, -, heq⟩ := hname'
        exact (Key.text.inj heq).symm
      -- before `functions` there are two operands
      · obtain ⟨left, -, hrest⟩ := Option.bind_eq_some_iff.1 h
        obtain ⟨right, -, heq⟩ := Option.map_eq_some_iff.1 hrest
        cases heq
        exact (List.filter_sublist.map Prod.fst).nodup (by simp)
    · cases h
  | null | bool | int | float | text | list => cases h

/-! ### Lists of places -/

theorem listed_nil : Listed (nodeBelow? st []) [] where
  nodup := List.nodup_nil
  mem_iff path := by cases path <;> simp [nodeBelow?, Fields.get?]
  parent_first path name h := by cases h

/-- A place below a node starts with the name of a part. -/
theorem Listed.exists_cons {parts : Fields} {places : List (List Key)}
    (h : Listed (nodeBelow? st parts) places) {path : List Key} (hpath : path ∈ places) :
    ∃ first rest, path = first :: rest ∧ Fields.get? first parts ≠ none := by
  have hnode := (h.mem_iff path).1 hpath
  cases path with
  | nil => cases hnode
  | cons first rest =>
    refine ⟨first, rest, rfl, fun hnone => ?_⟩
    rw [nodeBelow?, hnone] at hnode
    cases hnode

/-- The places of a first part come before those of the others. -/
theorem Listed.cons {name : Key} {t : Tree} {parts : Fields}
    {places places' : List (List Key)} (hname : Fields.get? name parts = none)
    (h : Listed (nodeAt? st t) places) (h' : Listed (nodeBelow? st parts) places') :
    Listed (nodeBelow? st ((name, t) :: parts)) (places.map (name :: ·) ++ places') := by
  -- the places of the other parts start with other names
  have hother : ∀ path, name :: path ∉ places' := by
    intro path hpath
    obtain ⟨first, rest, heq, hfirst⟩ := h'.exists_cons hpath
    cases heq
    exact hfirst hname
  refine ⟨List.nodup_append.2 ⟨h.nodup.map List.cons_injective, h'.nodup, ?_⟩, fun path => ?_,
    fun path last hpath hpart => ?_⟩
  · rintro _ hpath _ hpath' rfl
    obtain ⟨rest, -, rfl⟩ := List.mem_map.1 hpath
    exact hother rest hpath'
  · rw [List.mem_append, List.mem_map, h'.mem_iff]
    cases path with
    | nil => simp [nodeBelow?]
    | cons first rest =>
      by_cases hfirst : name = first
      · subst hfirst
        simp [nodeBelow?, Fields.get?, hname, h.mem_iff]
      · simp [nodeBelow?, Fields.get?, hfirst]
  · obtain hpath | hpath := List.mem_append.1 hpath
    · obtain ⟨rest, hrest, rfl⟩ := List.mem_map.1 hpath
      have hpart : rest ++ [last] ∈ places := by simpa [hother] using hpart
      exact ((h.parent_first rest last hrest hpart).map (name :: ·)).trans
        (List.sublist_append_left _ _)
    · have hpart : path ++ [last] ∈ places' := by
        obtain ⟨first, rest, rfl, hfirst⟩ := h'.exists_cons hpath
        refine (List.mem_append.1 hpart).resolve_left fun hmap => ?_
        obtain ⟨_, -, heq⟩ := List.mem_map.1 hmap
        exact hother rest ((List.cons.inj heq).1 ▸ hpath)
      exact (h'.parent_first path last hpath hpart).trans (List.sublist_append_right _ _)

/-- The place of a node comes before those of its parts. -/
theorem Listed.node {t : Tree} {label : String} {parts : Fields} {places : List (List Key)}
    (hshown : t.shown? st = some (label, parts)) (h : Listed (nodeBelow? st parts) places) :
    Listed (nodeAt? st t) ([] :: places) where
  nodup := List.nodup_cons.2 ⟨fun hnil => (by cases (h.mem_iff []).1 hnil), h.nodup⟩
  mem_iff path := by
    cases path with
    | nil => simp [nodeAt?]
    | cons name path => simp [nodeAt?_cons hshown, h.mem_iff]
  parent_first path name hpath hpart := by
    have hpart : path ++ [name] ∈ places := by simpa using hpart
    obtain rfl | hpath := List.mem_cons.1 hpath
    · exact .cons_cons _ (List.singleton_sublist.2 hpart)
    · exact .cons _ (h.parent_first path name hpath hpart)

/-- The line shows the node at the place: its label, behind four spaces for every name of the
path. -/
def ShowsAt (st : Stage) (node? : List Key → Option Tree) (indent : Nat) (line : String)
    (path : List Key) : Prop :=
  ∃ node label parts, node? path = some node ∧ node.shown? st = some (label, parts) ∧
    Sketch.IsLabel label ∧ line = margin ↑(indent + 4 * path.length) ++ label

/-- A line shows the same node from further up. -/
theorem ShowsAt.of_part {node? node?' : List Key → Option Tree} {indent : Nat} {line : String}
    {path : List Key} {name : Key} (h : ShowsAt st node? (indent + 4) line path)
    (hnode : node?' (name :: path) = node? path) :
    ShowsAt st node?' indent line (name :: path) := by
  obtain ⟨node, label, parts, hat, hshown, hlabel, hline⟩ := h
  have hcolumn : indent + 4 * (name :: path).length = indent + 4 + 4 * path.length := by
    rw [List.length_cons]
    omega
  exact ⟨node, label, parts, hnode.trans hat, hshown, hlabel, by rw [hcolumn, hline]⟩

theorem ShowsAt.imp {node? node?' : List Key → Option Tree} {indent : Nat} {line : String}
    {path : List Key} (h : ShowsAt st node? indent line path)
    (hnode : ∀ node, node? path = some node → node?' path = some node) :
    ShowsAt st node?' indent line path := by
  obtain ⟨node, label, parts, hat, hrest⟩ := h
  exact ⟨node, label, parts, hnode node hat, hrest⟩

/-- What is below a node is below it, seen from the node. -/
theorem nodeAt?_of_nodeBelow? {t node : Tree} {label : String} {parts : Fields}
    (hshown : t.shown? st = some (label, parts)) {path : List Key}
    (h : nodeBelow? st parts path = some node) : nodeAt? st t path = some node := by
  cases path with
  | nil => cases h
  | cons name path => rwa [nodeAt?_cons hshown]

/-- One part more, under another name, leaves the others where they are. -/
theorem nodeBelow?_cons {name : Key} {t node : Tree} {parts : Fields}
    (hname : Fields.get? name parts = none) {path : List Key}
    (h : nodeBelow? st parts path = some node) :
    nodeBelow? st ((name, t) :: parts) path = some node := by
  cases path with
  | nil => cases h
  | cons first path =>
    have hne : name ≠ first := by
      rintro rfl
      rw [nodeBelow?, hname] at h
      cases h
    rwa [nodeBelow?, Fields.get?, if_neg hne]

end Tree

/-! ## Rows at their places -/

namespace Sketch

open Stepwise.Tree (Listed ShowsAt nodeAt? nodeBelow?)

variable {st : Stage}

mutual

/-- **The rows of a sketch stand at the places of the tree that it depicts.** -/
theorem Depicts.exists_listed {s : Sketch} {t : Tree} (h : s.Depicts st t) (hs : s.Clear) :
    ∃ places, Listed (nodeAt? st t) places ∧ ∀ column,
      List.Forall₂ (ShowsAt st (nodeAt? st t) column) ((s.rows column).map Row.line) places := by
  cases s with
  | node label ss =>
    obtain ⟨parts, hshown, hparts⟩ := h
    obtain ⟨places, hplaces, hrows⟩ :=
      DepictsAll.exists_listed hparts hs.2 (Tree.nodup_names hshown)
    refine ⟨[] :: places, hplaces.node hshown, fun column => .cons ?_ ?_⟩
    · exact ⟨t, label, parts, rfl, hshown, hs.1, rfl⟩
    · exact (hrows column).imp fun _ _ hrow =>
        hrow.imp fun _ => Tree.nodeAt?_of_nodeBelow? hshown
termination_by structural s

/-- The rows of the parts stand at the places below a node. -/
theorem DepictsAll.exists_listed {ss : List Sketch} {parts : Fields} (h : DepictsAll st ss parts)
    (hss : AllClear ss) (hnames : (Fields.names parts).Nodup) :
    ∃ places, Listed (nodeBelow? st parts) places ∧ ∀ column,
      List.Forall₂ (ShowsAt st (nodeBelow? st parts) column)
        ((rowsOf (column + 4) ss).map Row.line) places := by
  cases ss with
  | nil =>
    cases parts with
    | nil => exact ⟨[], Tree.listed_nil, fun _ => .nil⟩
    | cons => exact h.elim
  | cons s ss =>
    cases parts with
    | nil => exact h.elim
    | cons part parts =>
      obtain ⟨name, t⟩ := part
      -- the parts have different names, so that no place stands in two lists
      obtain ⟨hfresh, hnames⟩ := List.nodup_cons.1 hnames
      have hname := Fields.get?_eq_none_iff.2 hfresh
      obtain ⟨places, hplaces, hrows⟩ := Depicts.exists_listed h.1 hss.1
      obtain ⟨places', hplaces', hrows'⟩ := DepictsAll.exists_listed h.2 hss.2 hnames
      refine ⟨_, hplaces.cons hname hplaces', fun column => ?_⟩
      rw [rowsOf, List.map_append]
      refine List.rel_append (List.forall₂_map_right_iff.2 ?_) ?_
      · refine (hrows (column + 4)).imp fun _ _ hrow => hrow.of_part ?_
        simp [nodeBelow?, Fields.get?]
      · exact (hrows' column).imp fun _ _ hrow => hrow.imp fun _ => Tree.nodeBelow?_cons hname
termination_by structural ss

end

end Sketch

/-! ## Lines of text -/

/-- What stands between the line ends of a text. -/
def Text.rows (text : String) : List String :=
  (text.toList.splitOn '\n').map String.ofList

/-- The text with so many spaces in front of every line. -/
def Text.indented (k : Nat) (text : String) : String :=
  "\n".intercalate ((Text.rows text).map (Tree.margin k ++ ·))

namespace Sketch

theorem rows_text {column : Nat} {s : Sketch} (hs : s.Clear) :
    Text.rows (s.text column) = (s.rows column).map Row.line := by
  rw [Text.rows, splitOn_text hs, List.map_map]
  exact List.map_congr_left fun row _ => String.ofList_toList

/-- The row so many columns further to the right. -/
def Row.shift (k : Nat) (row : Row) : Row :=
  ⟨row.column + k, row.label⟩

theorem Row.line_shift (k : Nat) (row : Row) : (row.shift k).line = Tree.margin k ++ row.line := by
  rw [← String.toList_inj, String.toList_append, toList_line, toList_line, ← List.append_assoc]
  simp [Tree.margin, Row.shift, Nat.add_comm]

mutual

/-- A sketch further to the right has the same rows further to the right. -/
theorem rows_add (column k : Nat) (s : Sketch) :
    s.rows (column + k) = (s.rows column).map (Row.shift k) := by
  cases s with
  | node label parts =>
    rw [rows, rows, List.map_cons, Nat.add_right_comm, rowsOf_add (column + 4) k parts]
    rfl
termination_by structural s

theorem rowsOf_add (column k : Nat) (ss : List Sketch) :
    rowsOf (column + k) ss = (rowsOf column ss).map (Row.shift k) := by
  cases ss with
  | nil => rfl
  | cons s ss => rw [rowsOf, rowsOf, List.map_append, rows_add column k s, rowsOf_add column k ss]
termination_by structural ss

end

/-- **From a column further to the right** the text of a sketch has so many spaces more in front of
every line. -/
theorem indented_text {column : Nat} {s : Sketch} (hs : s.Clear) (k : Nat) :
    Text.indented k (s.text column) = s.text (column + k) := by
  rw [Text.indented, rows_text hs, text, rows_add, List.map_map, List.map_map]
  refine congrArg _ (List.map_congr_left fun row _ => ?_)
  exact (Row.line_shift k row).symm

end Sketch

/-! ## Outlines of programs -/

namespace Program

/-- **The layout of an outline.** Every tree of the parser has an outline, whatever the
indentation. Its lines are the nodes that it shows, one line for each place in the tree; a line
starts four columns further to the right than the line of the node that its node is part of, and
comes after it. With more indentation so many spaces more stand in front of every line. -/
theorem outline_layout {st : Stage} (hst : st.outlines = true) {code : String} {t : Tree}
    (h : Program.tree st code = .ok t) :
    ∃ places : List (List Key), places.Nodup ∧
      (∀ path, path ∈ places ↔ (t.nodeAt? st path).isSome = true) ∧
      (∀ path name, path ++ [name] ∈ places → [path, path ++ [name]].Sublist places) ∧
      ∀ indent k : Nat, ∃ text, t.outline st indent = .ok text ∧
        List.Forall₂ (Tree.ShowsAt st (t.nodeAt? st) indent) (Text.rows text) places ∧
        t.outline st ↑(indent + k) = .ok (Text.indented k text) := by
  obtain ⟨s, hs, rfl⟩ := Program.tree_fits h
  have hdepicts := Statement.depicts_tree hst hs
  obtain ⟨places, hplaces, hrows⟩ := hdepicts.exists_listed s.clear_sketch
  refine ⟨places, hplaces.nodup, hplaces.mem_iff, fun path name hpart => ?_, fun indent k => ?_⟩
  · have hnode := (hplaces.mem_iff _).1 hpart
    rw [Tree.nodeAt?_append] at hnode
    have hpath := (hplaces.mem_iff path).2 (Option.isSome_of_isSome_bind hnode)
    exact hplaces.parent_first path name hpath hpart
  · refine ⟨_, hdepicts.outline indent, ?_, ?_⟩
    · rw [Sketch.rows_text s.clear_sketch]
      exact hrows indent
    · rw [hdepicts.outline, Sketch.indented_text s.clear_sketch]

/-- An assignment below a condition that is not shown. -/
theorem outline_layout_of_branch : ∃ t : Tree,
    Program.tree .returns "if(a)b=-c" = .ok t ∧
      t.outline .returns 0 = .ok "if\n    =\n        b\n        negate\n            c" ∧
      t.outline .returns 3 =
        .ok (Text.indented 3 "if\n    =\n        b\n        negate\n            c") := by
  let name (x : String) : Tree := Tree.node "<identifier>" [("value", .text x)]
  let negated : Tree := Tree.node "negate" [("value", name "c")]
  let assigned : Tree := Tree.node "=" [("target", name "b"), ("value", negated)]
  let t : Tree := Tree.node "if" [("condition", name "a"), ("then", assigned)]
  have h : Program.tree .returns "if(a)b=-c" = .ok t := rfl
  have houtline : t.outline .returns 0 =
      .ok "if\n    =\n        b\n        negate\n            c" := rfl
  obtain ⟨places, -, -, -, hlines⟩ := outline_layout rfl h
  obtain ⟨text, htext, -, hindented⟩ := hlines 0 3
  cases houtline.symm.trans htext
  exact ⟨t, h, houtline, hindented⟩

end Program

end Stepwise
