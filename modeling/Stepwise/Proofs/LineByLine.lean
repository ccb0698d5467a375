import Stepwise.Proofs.Action
import Stepwise.Proofs.Outlines
import Stepwise.Proofs.ParserImage
import Stepwise.Proofs.Upkeep
import Stepwise.Session.Lines

/-!
# Lines one after the other

A text that is run line by line is a list of programs. What a list of lines does
is put together from what its parts do: the environment goes on, the output is
added to, and a fault is the end.

- `Text.ofLines`, `Text.lines_ofLines`: a text made of lines has these lines;
- `Session.isBlankLine`, `Session.program`: the lines that do nothing, and the
  program that another line is;
- `Session.run_append_of_ok`, `Session.run_append_of_error`: lines behind lines;
- `Session.exists_failing_line`, `Session.shownByFailing_of_error`: at which line
  lines fail, and what that line has shown before.
-/

namespace Stepwise

/-! ## Texts of lines -/

namespace Text

/-- The text can stand in one line. -/
def isLine (line : String) : Bool :=
  line.toList.all fun c => c != '\n' && c != '\r'

/-- The text with these lines. -/
def ofLines (lines : List String) : String :=
  String.join (lines.map (· ++ "\n"))

/-- A text without carriage returns keeps its line ends. -/
theorem unifyLineEnds_eq_self : ∀ {cs : List Char}, '\r' ∉ cs → unifyLineEnds cs = cs
  | [], _ => rfl
  | c :: cs, h => by
    have hc : c ≠ '\r' := fun hc => h (hc ▸ List.mem_cons_self)
    have ih := unifyLineEnds_eq_self fun hmem => h (List.mem_cons_of_mem c hmem)
    rw [unifyLineEnds.eq_3 _ _ (by simp [hc]) (by simp [hc]), ih]

/-- A line ends at its line feed. -/
theorem splitLines_append : ∀ {line : List Char} (rest : List Char), '\n' ∉ line →
    splitLines (line ++ '\n' :: rest) = line :: splitLines rest
  | [], _, _ => rfl
  | c :: line, rest, h => by
    have hc : c ≠ '\n' := fun hc => h (hc ▸ List.mem_cons_self)
    have ih := splitLines_append rest fun hmem => h (List.mem_cons_of_mem c hmem)
    cases line with
    | nil => exact splitLines.eq_3 c rest hc
    | cons d line =>
      have hd : ∀ tail, d :: line ++ '\n' :: rest ≠ '\n' :: tail := by
        rintro tail heq
        obtain ⟨rfl, -⟩ := List.cons.inj heq
        exact h (by simp)
      exact splitLines.eq_4 c _ _ _ hc hd ih

theorem toList_ofLines (lines : List String) :
    (ofLines lines).toList = lines.flatMap (·.toList ++ ['\n']) := by
  simp [ofLines, String.toList_join, List.flatMap_map]

theorem not_mem_of_isLine {line : String} (h : isLine line = true) :
    '\n' ∉ line.toList ∧ '\r' ∉ line.toList := by
  simp only [isLine, List.all_eq_true, Bool.and_eq_true, bne_iff_ne] at h
  exact ⟨fun hmem => (h _ hmem).1 rfl, fun hmem => (h _ hmem).2 rfl⟩

/-- The lines of a text that is made of lines are these lines. -/
theorem lines_ofLines {lines : List String} (h : ∀ line ∈ lines, isLine line = true) :
    Text.lines (ofLines lines) = lines := by
  have hreturn : '\r' ∉ lines.flatMap (·.toList ++ ['\n']) := by
    intro hmem
    obtain ⟨line, hline, hmem⟩ := List.mem_flatMap.1 hmem
    simp [(not_mem_of_isLine (h line hline)).2] at hmem
  have hsplit : splitLines (lines.flatMap (·.toList ++ ['\n'])) = lines.map String.toList := by
    clear hreturn
    induction lines with
    | nil => rfl
    | cons line lines ih =>
      rw [List.forall_mem_cons] at h
      rw [List.flatMap_cons, List.append_assoc, List.singleton_append,
        splitLines_append _ (not_mem_of_isLine h.1).1, ih h.2, List.map_cons]
  rw [Text.lines, toList_ofLines, unifyLineEnds_eq_self hreturn, hsplit, List.map_map]
  simp [Function.comp_def]

/-- Nothing is left of a text without its blanks if and only if it is blank. -/
theorem strip_eq_nil_iff {cs : List Char} : strip cs = [] ↔ ∀ c ∈ cs, isBlank c = true := by
  rw [strip, List.reverse_eq_nil_iff, List.dropWhile_eq_nil_iff]
  constructor
  · intro h c hc
    -- a character is one of the blanks in front or stands behind them, where all are blank
    rw [← List.takeWhile_append_dropWhile (p := isBlank) (l := cs)] at hc
    obtain hc | hc := List.mem_append.1 hc
    · exact List.mem_takeWhile_imp hc
    · exact h c (List.mem_reverse.2 hc)
  · intro h c hc
    exact h c ((List.dropWhile_sublist _).subset (List.mem_reverse.1 hc))

end Text

/-! ## One line -/

namespace Session

open Action (Preserves)

variable {st : Stage}

/-- The line has nothing but white space. -/
def isBlankLine (line : String) : Bool :=
  line.toList.all Text.isBlank

/-- The program that a line is. -/
def program (line : String) : String :=
  String.ofList (Text.strip line.toList)

/-- A blank line does nothing. -/
theorem runLine_blank {line : String} (h : isBlankLine line = true) :
    runLine st line = pure () := by
  have hstrip : Text.strip line.toList = [] := by
    rw [Text.strip_eq_nil_iff]
    exact List.all_eq_true.1 h
  simp [runLine, hstrip]

/-- Any other line is run as a program, and shown first. -/
theorem runLine_program {line : String} (h : isBlankLine line = false) :
    runLine st line = showAndRun st (program line) := by
  have hstrip : Text.strip line.toList ≠ [] := by
    rw [Ne, Text.strip_eq_nil_iff]
    simpa [isBlankLine] using h
  simp [runLine, hstrip, program]

/-- Whatever a program prints goes behind what is printed already. -/
theorem showAndRun_behind (earlier : String) (code : String) :
    Preserves (Machine.Behind earlier) (fun _ => True) (showAndRun st code) := by
  have printing : ∀ s, Preserves (Machine.Behind earlier) (fun _ => True) (Action.print s) :=
    (Machine.Behind.upkeep st).printing
  unfold showAndRun
  refine .liftBind fun t _ => .bind (printing _) fun _ _ => .liftBind fun text _ => ?_
  refine .bind (printing _) fun _ _ => .bind (printing _) fun _ _ => ?_
  refine .bind ((Machine.Behind.upkeep st).evaluate _ .statement t trivial) fun c _ => ?_
  exact .liftBind fun _ _ => printing _

theorem runLine_behind (earlier : String) (line : String) :
    Preserves (Machine.Behind earlier) (fun _ => True) (runLine st line) := by
  cases h : isBlankLine line with
  | true =>
    rw [runLine_blank h]
    exact .pure trivial
  | false =>
    rw [runLine_program h]
    exact showAndRun_behind earlier _

/-- Lines print behind what is printed already. -/
theorem runLines_behind (earlier : String) (lines : List String) :
    Preserves (Machine.Behind earlier) (fun _ => True) (runLines st lines) := by
  induction lines with
  | nil => exact .pure trivial
  | cons line lines ih => exact .bind (runLine_behind earlier line) fun _ _ => ih

/-! ## Lines in order -/

/-- Lines behind lines are run behind them. -/
theorem runLines_append (ls₁ ls₂ : List String) :
    runLines st (ls₁ ++ ls₂) = runLines st ls₁ >>= fun _ => runLines st ls₂ := by
  induction ls₁ with
  | nil => rfl
  | cons line ls₁ ih =>
    rw [List.cons_append, runLines, runLines, ih, bind_assoc]

/-- Blank lines do nothing, wherever they stand. -/
theorem runLines_filter (ls : List String) :
    runLines st (ls.filter fun line => !isBlankLine line) = runLines st ls := by
  induction ls with
  | nil => rfl
  | cons line ls ih =>
    cases h : isBlankLine line with
    | true =>
      rw [List.filter_cons_of_neg (by simp [h]), ih, runLines, runLine_blank h]
      rfl
    | false => rw [List.filter_cons_of_pos (by simp [h]), runLines, runLines, ih]

/-- What follows lines that ran to their end goes on in their environment, behind their output. -/
theorem run_append_of_ok {ls₁ : List String} {env : Value} {m : Machine}
    (h : (runLines st ls₁).run env = (.ok (), m)) (ls₂ : List String) :
    (runLines st (ls₁ ++ ls₂)).run env =
      (((runLines st ls₂).run m.environment).1,
        ⟨((runLines st ls₂).run m.environment).2.environment,
          m.printed ++ ((runLines st ls₂).run m.environment).2.printed⟩) := by
  rw [runLines_append, Action.run, Action.bind_ok _ h]
  exact Machine.Behind.apply_eq (runLines_behind m.printed ls₂) m.environment

/-- After a fault no line is run. -/
theorem run_append_of_error {ls₁ : List String} {env : Value} {m : Machine} {f : Fault}
    (h : (runLines st ls₁).run env = (.error f, m)) (ls₂ : List String) :
    (runLines st (ls₁ ++ ls₂)).run env = (.error f, m) := by
  rw [runLines_append, Action.run, Action.bind_error _ h]

/-- **Where lines fail**: at one of them, behind lines that ran to their end. -/
theorem exists_failing_line {ls : List String} {env : Value} {m : Machine} {f : Fault}
    (h : (runLines st ls).run env = (.error f, m)) :
    ∃ (before : List String) (line : String) (after : List String) (m₀ m' : Machine),
      ls = before ++ line :: after ∧ (runLines st before).run env = (.ok (), m₀) ∧
      (runLine st line).run m₀.environment = (.error f, m') ∧
      m = ⟨m'.environment, m₀.printed ++ m'.printed⟩ := by
  induction ls generalizing env m with
  | nil => cases h
  | cons line ls ih =>
    cases hline : (runLine st line).run env with
    | mk r m₁ =>
      cases r with
      | error f' =>
        have hfirst : (runLines st (line :: ls)).run env = (.error f', m₁) :=
          Action.bind_error _ hline
        cases hfirst.symm.trans h
        exact ⟨[], line, ls, ⟨env, ""⟩, m, rfl, rfl, hline, by simp⟩
      | ok u =>
        have hone : (runLines st [line]).run env = (.ok (), m₁) :=
          Action.bind_ok _ hline
        -- the first line ran: the failing one is among the others, which start in its environment
        have hrest := run_append_of_ok hone ls
        cases hls : (runLines st ls).run m₁.environment with
        | mk r m₂ =>
          rw [List.singleton_append, h, hls] at hrest
          cases hrest
          obtain ⟨before, failing, after, m₀, m', rfl, hbefore, hfailing, rfl⟩ := ih hls
          have hmore := run_append_of_ok hone before
          rw [List.singleton_append, hbefore] at hmore
          exact ⟨line :: before, failing, after, _, m', rfl, hmore, hfailing,
            by simp [String.append_assoc]⟩

/-! ## What a failing line shows -/

/-- What a line that fails has shown: nothing if it is no program, else its outline between two
rules. -/
def ShownByFailing (st : Stage) (line shown : String) : Prop :=
  (∃ f, Program.tree st (program line) = .error f) ∧ shown = "" ∨
    ∃ t outline, Program.tree st (program line) = .ok t ∧ Tree.outline st t 0 = .ok outline ∧
      shown = "---\n" ++ outline ++ "\n---\n"

/-- A program is run behind its outline. -/
theorem showAndRun_of_tree {code outline : String} {t : Tree} (ht : Program.tree st code = .ok t)
    (houtline : Tree.outline st t 0 = .ok outline) (env : Value) :
    (showAndRun st code).run env = (evaluate st Program.budget .statement t >>= fun c =>
      liftM c.value.print >>= Action.printLine) ⟨env, "---\n" ++ outline ++ "\n---\n"⟩ := by
  have htree : (liftM (Program.tree st code) : Action Tree) ⟨env, ""⟩ = (.ok t, ⟨env, ""⟩) := by
    rw [ht]
    rfl
  have hline : ∀ m, (liftM (Tree.outline st t 0) : Action String) m = (.ok outline, m) := by
    rw [houtline]
    exact fun _ => rfl
  have hprint : ∀ s printed, Action.printLine s ⟨env, printed⟩ =
      (.ok (), ⟨env, printed ++ (s ++ "\n")⟩) := fun _ _ => rfl
  have hshown : ("" ++ ("---" ++ "\n") ++ (outline ++ "\n") ++ ("---" ++ "\n") : String) =
      "---\n" ++ outline ++ "\n---\n" := by
    simp [← String.toList_inj]
  rw [showAndRun, Action.run, Action.bind_ok _ htree, Action.bind_ok _ (hprint _ _),
    Action.bind_ok _ (hline _), Action.bind_ok _ (hprint _ _), Action.bind_ok _ (hprint _ _),
    hshown]

/-- **What a failing line has shown**, at the first two stages: there every tree has an outline, and
programs print nothing. -/
theorem shownByFailing_of_error (hst : st.has .booleans = false) {line : String} {env : Value}
    {f : Fault} {m : Machine} (h : (runLine st line).run env = (.error f, m)) :
    ShownByFailing st line m.printed := by
  have hprogram : isBlankLine line = false := by
    by_contra hblank
    rw [runLine_blank (by simpa using hblank)] at h
    cases h
  rw [runLine_program hprogram] at h
  cases ht : Program.tree st (program line) with
  | error f' =>
    have hfails : (showAndRun st (program line)).run env = (.error f', ⟨env, ""⟩) := by
      unfold showAndRun
      rw [ht]
      rfl
    cases hfails.symm.trans h
    exact .inl ⟨⟨f, ht⟩, rfl⟩
  | ok t =>
    obtain ⟨s, hs, rfl⟩ := Program.tree_fits ht
    have houtlines : st.outlines = true := by simp [Stage.outlines, hst]
    have houtline := Statement.outline_tree houtlines hs 0
    refine .inr ⟨_, _, ht, houtline, ?_⟩
    rw [showAndRun_of_tree ht houtline] at h
    -- before there is `print` a program shows nothing itself
    have hblocks : st.has .blocks = false := by cases st <;> first | rfl | cases hst
    have hsilent := evaluate_silent hblocks Program.budget .statement (s.tree st)
      ⟨env, "---\n" ++ s.sketch.text 0 ++ "\n---\n"⟩
    -- either the result cannot be written or the program fails
    obtain ⟨c, m₁, heval, hprint⟩ | ⟨f', heval, -⟩ := Action.bind_eq h
    · rw [heval] at hsilent
      cases hwritten : c.value.print with
      | ok text =>
        rw [hwritten] at hprint
        cases hprint
      | error f' =>
        rw [hwritten] at hprint
        cases hprint
        exact hsilent
    · rw [heval] at hsilent
      exact hsilent

/-! ## The lines of a text -/

/-- A text is run by its lines, with nothing bound at first, and leaves no environment behind. -/
theorem byLine_ofLines {ls : List String} (h : ∀ line ∈ ls, Text.isLine line = true) (m : Machine) :
    byLine st (Text.ofLines ls) m =
      (((runLines st ls).run (.record [])).1,
        ⟨m.environment, m.printed ++ ((runLines st ls).run (.record [])).2.printed⟩) := by
  rw [byLine, Text.lines_ofLines h]
  exact Action.inFrame_eq (Machine.Behind.apply_eq (runLines_behind m.printed ls) (.record []))

/-- **Lines are run one after the other.** Lines that run to their end print their own output and
hand their environment on: what follows does and prints what it would from there. Lines that fail
do so at one line, behind what the lines before it and that line itself have shown, and whatever
follows has no effect. Blank lines can stand anywhere. A text is run like the list of its lines. -/
theorem byLine_composes (ls₁ ls₂ : List String) (env : Value) :
    (∀ m₁, (runLines .assignments ls₁).run env = (.ok (), m₁) →
      ∀ r m₂, (runLines .assignments ls₂).run m₁.environment = (r, m₂) →
        (runLines .assignments (ls₁ ++ ls₂)).run env =
          (r, ⟨m₂.environment, m₁.printed ++ m₂.printed⟩)) ∧
    (∀ f m₁, (runLines .assignments ls₁).run env = (.error f, m₁) →
      (runLines .assignments (ls₁ ++ ls₂)).run env = (.error f, m₁) ∧
      ∃ (before : List String) (line : String) (after : List String) (m₀ m' : Machine),
        ls₁ = before ++ line :: after ∧ (runLines .assignments before).run env = (.ok (), m₀) ∧
        (runLine .assignments line).run m₀.environment = (.error f, m') ∧
        m₁ = ⟨m'.environment, m₀.printed ++ m'.printed⟩ ∧
        ShownByFailing .assignments line m'.printed) ∧
    (∀ ls ls' : List String,
      (ls.filter fun line => !isBlankLine line) = (ls'.filter fun line => !isBlankLine line) →
        runLines .assignments ls = runLines .assignments ls') ∧
    ∀ ls : List String, (∀ line ∈ ls, Text.isLine line = true) → ∀ m : Machine,
      byLine .assignments (Text.ofLines ls) m =
        (((runLines .assignments ls).run (.record [])).1, ⟨m.environment,
          m.printed ++ ((runLines .assignments ls).run (.record [])).2.printed⟩) := by
  refine ⟨fun m₁ h₁ r m₂ h₂ => ?_, fun f m₁ h₁ => ⟨run_append_of_error h₁ ls₂, ?_⟩,
    fun ls ls' h => ?_, fun ls hls m => byLine_ofLines hls m⟩
  · rw [run_append_of_ok h₁, h₂]
  · obtain ⟨before, line, after, m₀, m', hls, hbefore, hline, hm⟩ := exists_failing_line h₁
    exact ⟨before, line, after, m₀, m', hls, hbefore, hline, hm, shownByFailing_of_error rfl hline⟩
  · rw [← runLines_filter ls, h, runLines_filter]

end Session

end Stepwise
