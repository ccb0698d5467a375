import Mathlib.Data.List.Perm.Basic
import Stepwise.Proofs.Sessions

/-!
# The course of a session

What happens in a session, whatever it does with its texts. The arguments, the files, the kind of
input and the lines typed fix in advance a list of cues (`Setting.cues`): what the session writes
by itself, the text that it runs next, and whether the environment is shown afterwards. The session
goes from cue to cue until there are none left or something fails (`interactive_course`).

- `Cue.Goes`: what happens at one cue. `Course`: what happens at cue after cue. A fault ends the
  course; at the prompt some faults are caught, and the course ends without one;
- `Visit`: a text that was run, with the environment that it found and the one that it left;
- `Threaded`: every text finds what the text before it has left. One cue keeps it so
  (`Cue.Goes.threaded`), hence a whole course does (`Course.threaded`);
- `Plays`: the action goes through the cues. One lemma for each part of a session puts a cue in
  front.
-/

namespace Stepwise.Session

/-! ## Cues -/

/-- Where a session takes a text from. -/
inductive Source where
  /-- A file, if it can be read, or the whole input. -/
  | whole (text? : Except Fault String)
  /-- The prompt. There is no text if the line typed is `.e` or the input is over. -/
  | typed (line? : Option String)

/-- One thing to be done in a session. -/
structure Cue where
  /-- What the session writes first. -/
  lead : String
  source : Source
  /-- The environment is shown at the end. -/
  shows : Bool

/-- The text that a cue has to run. -/
def Cue.given (cue : Cue) : Option String :=
  match cue.source with
  | .whole text? => text?.toOption
  | .typed line? => line?

/-- The last line of a session that ends by this fault, if the fault is caught. -/
def Cue.parting (cue : Cue) (e : Fault) : Option String :=
  match cue.source with
  | .whole _ => none
  | .typed _ => farewell? e

/-- A file is run. -/
def Setting.fileCue (s : Setting) (name : String) : Cue :=
  ⟨"", .whole (s.read name), s.shows⟩

/-- A line typed at the prompt is run, unless it is `.e`. The environment is shown if it was shown
at first and an even number of such lines has been typed, or if it was not and the number is odd;
the line itself counts. -/
def lineCue (shows : Bool) (lines : List String) (k : Nat) (line : String) : Cue :=
  ⟨promptSign, .typed (if line = ".e" then none else some line),
    shows ^^ (lines.take (k + 1)).count ".e" % 2 == 1⟩

/-- The input at the prompt is over. -/
def lastCue (interrupted : Bool) : Cue :=
  ⟨promptSign ++ farewell interrupted ++ "\n", .typed none, false⟩

/-- The cues of a session that is not refused: the files in order, then the whole input if it is
not a terminal, else the lines typed, if there are no files or the prompt is asked for. -/
def Setting.cues (s : Setting) : List Cue :=
  s.fileNames.map s.fileCue ++
    if s.terminal then
      if s.fileNames.isEmpty || s.forced then
        (Text.lines s.input).mapIdx (lineCue s.shows (Text.lines s.input)) ++
          [lastCue s.interrupted]
      else []
    else [⟨"", .whole (.ok s.inputText), s.shows⟩]

/-! ## Going through the cues -/

/-- The environment is shown, or not. It may be impossible to write down. -/
inductive Shown : Bool → Machine → Except Fault Unit → Machine → Prop
  | off (m : Machine) : Shown false m (.ok ()) m
  | on {m : Machine} {text : String} : m.environment.print = .ok text →
      Shown true m (.ok ()) (m.wrote (text ++ "\n"))
  | unwritten {m : Machine} {e : Fault} : m.environment.print = .error e →
      Shown true m (.error e) m

/-- A text that was run: the environment that it found, how it ended, and the environment that it
left. -/
structure Visit where
  text : String
  found : Value
  result : Except Fault Unit
  left : Value

/-- What happens at a cue, with the text that was run, if any. -/
inductive Cue.Goes (eval : Evaluation) (cue : Cue) (m : Machine) :
    List Visit → Except Fault Unit → Machine → Prop
  /-- The text cannot be had. -/
  | unread {e : Fault} : cue.source = .whole (.error e) →
      Goes eval cue m [] (.error e) (m.wrote cue.lead)
  /-- The text fails. -/
  | failed {text : String} {e : Fault} {m' : Machine} : cue.given = some text →
      eval text (m.wrote cue.lead) = (.error e, m') →
      Goes eval cue m [⟨text, m.environment, .error e, m'.environment⟩] (.error e) m'
  /-- The text is run. -/
  | ran {text : String} {r : Except Fault Unit} {m₁ m' : Machine} : cue.given = some text →
      eval text (m.wrote cue.lead) = (.ok (), m₁) → Shown cue.shows m₁ r m' →
      Goes eval cue m [⟨text, m.environment, .ok (), m₁.environment⟩] r m'
  /-- There is no text. -/
  | idle {r : Except Fault Unit} {m' : Machine} : cue.source = .typed none →
      Shown cue.shows (m.wrote cue.lead) r m' → Goes eval cue m [] r m'

/-- What happens at cue after cue, up to the first fault. -/
inductive Course (eval : Evaluation) :
    List Cue → Machine → List Visit → Except Fault Unit → Machine → Prop
  | done (m : Machine) : Course eval [] m [] (.ok ()) m
  /-- A fault ends the session. -/
  | stopped {cue : Cue} {cues : List Cue} {m m' : Machine} {visits : List Visit} {e : Fault} :
      cue.Goes eval m visits (.error e) m' → cue.parting e = none →
      Course eval (cue :: cues) m visits (.error e) m'
  /-- A fault is caught, and ends the session with a farewell. -/
  | left {cue : Cue} {cues : List Cue} {m m' : Machine} {visits : List Visit} {e : Fault}
      {text : String} : cue.Goes eval m visits (.error e) m' → cue.parting e = some text →
      Course eval (cue :: cues) m visits (.ok ()) (m'.wrote (text ++ "\n"))
  | next {cue : Cue} {cues : List Cue} {m m₁ m' : Machine} {visits log : List Visit}
      {r : Except Fault Unit} : cue.Goes eval m visits (.ok ()) m₁ →
      Course eval cues m₁ log r m' → Course eval (cue :: cues) m (visits ++ log) r m'

/-- Every text finds what the text before it has left, the first one `env`. -/
def Threaded : Value → List Visit → Prop
  | _, [] => True
  | env, visit :: rest => visit.found = env ∧ Threaded visit.left rest

/-- The environment behind the texts. -/
def leftBy : Value → List Visit → Value
  | env, [] => env
  | _, visit :: rest => leftBy visit.left rest

/-- Visits one behind the other, the second ones from where the first ones have led. -/
theorem Threaded.append {env : Value} {xs ys : List Visit} (hxs : Threaded env xs)
    (hys : Threaded (leftBy env xs) ys) : Threaded env (xs ++ ys) := by
  induction xs generalizing env with
  | nil => exact hys
  | cons x xs ih => exact ⟨hxs.1, ih hxs.2 hys⟩

section Shown

variable {shows : Bool} {m m' : Machine} {r : Except Fault Unit}

theorem Shown.environment (h : Shown shows m r m') : m'.environment = m.environment := by
  cases h <;> rfl

/-- A fault of showing is not caught. -/
theorem Shown.uncaught {e : Fault} (h : Shown shows m (.error e) m') : Uncaught e := by
  cases h with
  | unwritten hprint =>
    have hanswers := m.environment.print_answers
    rw [hprint] at hanswers
    exact uncaught_of_operational hanswers

end Shown

section Course

variable {eval : Evaluation} {cue : Cue} {cues : List Cue} {m m' : Machine} {log : List Visit}
  {r : Except Fault Unit}

/-- One cue: its text finds the environment, and nothing but the text changes it. -/
theorem Cue.Goes.threaded (h : cue.Goes eval m log r m') : Threaded m.environment log ∧
    m'.environment = leftBy m.environment log := by
  cases h with
  | unread => exact ⟨trivial, rfl⟩
  | failed => exact ⟨⟨rfl, trivial⟩, rfl⟩
  | ran _ _ hshown => exact ⟨⟨rfl, trivial⟩, hshown.environment⟩
  | idle _ hshown => exact ⟨trivial, hshown.environment⟩

/-- **In a course every text finds what the text before it has left.** -/
theorem Course.threaded (h : Course eval cues m log r m') : Threaded m.environment log := by
  induction h with
  | done => trivial
  | stopped hcue | left hcue => exact hcue.threaded.1
  | next hcue _ ih =>
    obtain ⟨hthreaded, henv⟩ := hcue.threaded
    exact hthreaded.append (henv ▸ ih)

/-! ### Failures -/

/-- A fault with a parting text is one that the handlers catch. -/
theorem Cue.caught_of_parting {e : Fault} {text : String} (h : cue.parting e = some text) :
    ¬ Uncaught e := by
  intro hnone
  unfold Cue.parting at h
  split at h
  · cases h
  · rw [hnone] at h
    cases h

/-- A text that fails makes its cue fail with the same fault. -/
theorem Cue.Goes.of_error {visit : Visit} {e : Fault} (h : cue.Goes eval m log r m')
    (hvisit : visit ∈ log) (hresult : visit.result = .error e) : r = .error e := by
  cases h with
  | unread | idle => cases hvisit
  | failed =>
    obtain rfl := List.mem_singleton.1 hvisit
    exact hresult
  | ran =>
    obtain rfl := List.mem_singleton.1 hvisit
    cases hresult

theorem Cue.Goes.result_ok {visit : Visit} (h : cue.Goes eval m log (.ok ()) m')
    (hvisit : visit ∈ log) : visit.result = .ok () := by
  cases hresult : visit.result with
  | ok => rfl
  | error e => cases h.of_error hvisit hresult

/-- A fault of a text is that of the session, unless it is caught. -/
theorem Course.of_error (h : Course eval cues m log r m') {visit : Visit} {e : Fault}
    (hvisit : visit ∈ log) (hresult : visit.result = .error e) :
    r = .error e ∨ r = .ok () ∧ ¬ Uncaught e := by
  induction h with
  | done => cases hvisit
  | stopped hcue => exact .inl (hcue.of_error hvisit hresult)
  | left hcue hparting =>
    cases hcue.of_error hvisit hresult
    exact .inr ⟨rfl, Cue.caught_of_parting hparting⟩
  | next hcue _ ih =>
    obtain hvisit | hvisit := List.mem_append.1 hvisit
    · cases (hcue.result_ok hvisit).symm.trans hresult
    · exact ih hvisit

/-- A cue makes at most one visit. -/
theorem Cue.Goes.dropLast_eq_nil (h : cue.Goes eval m log r m') : log.dropLast = [] := by
  cases h <;> rfl

/-- Behind a text that fails no other is run: only the last visit may be one that fails. -/
theorem Course.dropLast_ok (h : Course eval cues m log r m') :
    ∀ visit ∈ log.dropLast, visit.result = .ok () := by
  induction h with
  | done => simp
  | stopped hcue | left hcue => simp [hcue.dropLast_eq_nil]
  | @next _ _ _ _ _ visits log _ hcue _ ih =>
    intro visit hvisit
    cases hlog : log with
    | nil =>
      rw [hlog, List.append_nil] at hvisit
      exact hcue.result_ok ((List.dropLast_sublist _).subset hvisit)
    | cons first rest =>
      rw [List.dropLast_append_of_ne_nil (by simp [hlog])] at hvisit
      obtain hvisit | hvisit := List.mem_append.1 hvisit
      · exact hcue.result_ok hvisit
      · exact ih visit hvisit

/-! ### Texts -/

/-- A cue runs the text that it gives, if it gets there. -/
theorem Cue.Goes.texts (h : cue.Goes eval m log r m') :
    log.map Visit.text <+: cue.given.toList ∧
      (r = .ok () → log.map Visit.text = cue.given.toList) := by
  cases h with
  | unread => exact ⟨List.nil_prefix, fun hr => by cases hr⟩
  | failed htext | ran htext => simp [htext]
  | idle htext => simp [Cue.given, htext]

/-- A fault that is caught is one of a text. -/
theorem Cue.Goes.exists_error {e : Fault} {text : String} (h : cue.Goes eval m log (.error e) m')
    (hparting : cue.parting e = some text) : ∃ visit ∈ log, visit.result = .error e := by
  cases h with
  | unread hsource =>
    rw [Cue.parting, hsource] at hparting
    cases hparting
  | failed => exact ⟨_, List.mem_singleton.2 rfl, rfl⟩
  | ran _ _ hshown | idle _ hshown =>
    -- showing the environment fails in other ways
    exact absurd hshown.uncaught (Cue.caught_of_parting hparting)

/-- The texts are run in order, and if nothing fails, all of them. -/
theorem Course.texts (h : Course eval cues m log r m') :
    log.map Visit.text <+: cues.filterMap Cue.given ∧
      (r = .ok () → (∀ visit ∈ log, visit.result = .ok ()) →
        log.map Visit.text = cues.filterMap Cue.given) := by
  -- the texts of more cues stand behind that of the first
  have hcons : ∀ (cue : Cue) (cues : List Cue), (cue :: cues).filterMap Cue.given =
      cue.given.toList ++ cues.filterMap Cue.given := by
    intro cue cues
    cases hgiven : cue.given <;> simp [hgiven]
  induction h with
  | done => exact ⟨List.prefix_refl _, fun _ _ => rfl⟩
  | stopped hcue =>
    rw [hcons]
    exact ⟨hcue.texts.1.trans (List.prefix_append _ _), fun hr => by cases hr⟩
  | left hcue hparting =>
    rw [hcons]
    refine ⟨hcue.texts.1.trans (List.prefix_append _ _), fun _ hok => ?_⟩
    -- a course that was left without a fault has a visit that failed
    obtain ⟨visit, hvisit, herror⟩ := hcue.exists_error hparting
    cases (hok visit hvisit).symm.trans herror
  | next hcue _ ih =>
    rw [hcons, List.map_append, hcue.texts.2 rfl, List.prefix_append_right_inj]
    refine ⟨ih.1, fun hr hok => ?_⟩
    rw [ih.2 hr fun visit hvisit => hok visit (List.mem_append_right _ hvisit)]

end Course

theorem lines_texts {f : Nat → String → Cue}
    (hf : ∀ k line, (f k line).given = if line = ".e" then none else some line)
    (lines : List String) :
    (lines.mapIdx f).filterMap Cue.given = lines.filter (· ≠ ".e") := by
  induction lines generalizing f with
  | nil => rfl
  | cons line rest ih =>
    rw [List.mapIdx_cons, List.filterMap_cons, hf, ih fun k line => hf (k + 1) line]
    by_cases hline : line = ".e" <;> simp [hline]

/-- The texts of the cues are those that the session is given. -/
theorem Setting.cues_texts (s : Setting) : s.cues.filterMap Cue.given = s.texts := by
  have hfiles : (s.fileNames.map s.fileCue).filterMap Cue.given =
      s.fileNames.filterMap fun name => (s.read name).toOption := by
    rw [List.filterMap_map]
    rfl
  unfold Setting.cues Setting.texts Setting.prompts
  rw [List.filterMap_append, hfiles]
  cases s.terminal with
  | false => rfl
  | true =>
    have hlines : ((Text.lines s.input).mapIdx
        (lineCue s.shows (Text.lines s.input))).filterMap Cue.given =
        (Text.lines s.input).filter (· ≠ ".e") := lines_texts (fun _ _ => rfl) _
    cases s.fileNames.isEmpty || s.forced with
    | false => rfl
    | true =>
      simp only [Bool.true_and, if_true]
      rw [List.filterMap_append, hlines]
      simp [Cue.given, lastCue]

/-! ## The session -/

/-- The action goes through the cues. -/
def Plays (eval : Evaluation) (cues : List Cue) (x : Action Unit) : Prop :=
  ∀ m, ∃ log, Course eval cues m log (x m).1 (x m).2

theorem shown_ite (shows : Bool) (m : Machine) :
    Shown shows m ((if shows then showEnvironment else pure () : Action Unit) m).1
      ((if shows then showEnvironment else pure () : Action Unit) m).2 := by
  cases shows with
  | false => exact .off m
  | true =>
    show Shown true m (showEnvironment m).1 (showEnvironment m).2
    unfold showEnvironment
    rw [Action.environment_bind]
    cases hprint : m.environment.print with
    | ok text => exact .on hprint
    | error e => exact .unwritten hprint

section Play

variable {eval : Evaluation} {cues : List Cue}

/-- The text of a cue is run. -/
theorem Cue.goes_runText (eval : Evaluation) (cue : Cue) {text : String}
    (h : cue.given = some text) (m : Machine) :
    ∃ visits, cue.Goes eval m visits (runText eval cue.shows text (m.wrote cue.lead)).1
      (runText eval cue.shows text (m.wrote cue.lead)).2 := by
  cases heval : eval text (m.wrote cue.lead) with
  | mk r m₁ =>
    cases r with
    | error e =>
      rw [runText, Action.bind_error _ heval]
      exact ⟨_, .failed h heval⟩
    | ok _ =>
      rw [runText, Action.bind_ok _ heval]
      exact ⟨_, .ran h heval (shown_ite cue.shows m₁)⟩

/-- A file or the whole input comes first. -/
theorem Plays.whole {x : Action Unit} (text? : Except Fault String) (shows : Bool)
    (hx : Plays eval cues x) :
    Plays eval (⟨"", .whole text?, shows⟩ :: cues) (do
      runText eval shows (← text?)
      x) := by
  intro m
  have hwrote : m.wrote "" = m := by simp [Machine.wrote]
  cases text? with
  | error e =>
    have hcue : Cue.Goes eval ⟨"", .whole (.error e), shows⟩ m [] (.error e) (m.wrote "") :=
      .unread rfl
    rw [hwrote] at hcue
    -- a file that cannot be read stops the session before anything is run
    exact ⟨[], .stopped hcue rfl⟩
  | ok text =>
    obtain ⟨visits, hcue⟩ :=
      Cue.goes_runText eval ⟨"", .whole (.ok text), shows⟩ rfl m
    rw [hwrote] at hcue
    show ∃ log, Course _ _ m log ((runText eval shows text >>= fun _ => x) m).1
      ((runText eval shows text >>= fun _ => x) m).2
    cases hrun : runText eval shows text m with
    | mk r m₁ =>
      rw [hrun] at hcue
      cases r with
      | error e =>
        rw [Action.bind_error _ hrun]
        exact ⟨visits, .stopped hcue rfl⟩
      | ok _ =>
        rw [Action.bind_ok _ hrun]
        obtain ⟨log, hlog⟩ := hx m₁
        exact ⟨visits ++ log, .next hcue hlog⟩

/-- The files come first. -/
theorem Plays.files {x : Action Unit} (hx : Plays eval cues x) (s : Setting)
    (names : List String) :
    Plays eval (names.map s.fileCue ++ cues) (do
      runFiles eval s names
      x) := by
  induction names with
  | nil => exact hx
  | cons name rest ih =>
    have hfirst := ih.whole (s.read name) s.shows
    simpa [runFiles, Setting.fileCue] using hfirst

/-- A line `.e` switches the display for all lines behind it. -/
theorem lineCue_cons (shows : Bool) (line : String) (rest : List String) (k : Nat) :
    lineCue shows (line :: rest) (k + 1) =
      lineCue (if line = ".e" then !shows else shows) rest k := by
  funext typed
  unfold lineCue
  rw [List.take_succ_cons]
  by_cases hline : line = ".e"
  · subst hline
    rw [List.count_cons_self, if_pos rfl]
    rcases Nat.mod_two_eq_zero_or_one ((rest.take (k + 1)).count ".e") with hcount | hcount <;>
      simp [Nat.add_mod, hcount]
  · rw [List.count_cons_of_ne hline, if_neg hline]

/-- What obeying a line does, but for the display that it leaves. -/
theorem goes_obeyLine (eval : Evaluation) (shows : Bool) (line : String) (rest : List String)
    (m : Machine) :
    ∃ visits r m₁, (lineCue shows (line :: rest) 0 line).Goes eval m visits r m₁ ∧
      obeyLine eval shows line (m.wrote promptSign) =
        (r.map fun _ => if line = ".e" then !shows else shows, m₁) := by
  by_cases hline : line = ".e"
  -- the command `.e` runs nothing: it shows the environment or stops showing it
  · subst hline
    have hcue : lineCue shows (".e" :: rest) 0 ".e" = ⟨promptSign, .typed none, !shows⟩ := by
      simp [lineCue]
    have hobey : obeyLine eval shows ".e" =
        (if !shows then showEnvironment else pure ()) >>= fun _ => pure !shows := by
      cases shows <;> simp [obeyLine]
    rw [hcue, hobey, Action.bind_pure_apply]
    exact ⟨[], _, _, .idle rfl (shown_ite (!shows) _), rfl⟩
  · have hcue : lineCue shows (line :: rest) 0 line =
        ⟨promptSign, .typed (some line), shows⟩ := by
      simp [lineCue, hline]
    have hobey : obeyLine eval shows line = runText eval shows line >>= fun _ => pure shows := by
      simp [obeyLine, hline]
    rw [hcue, hobey, Action.bind_pure_apply, if_neg hline]
    obtain ⟨visits, hgoes⟩ :=
      Cue.goes_runText eval ⟨promptSign, .typed (some line), shows⟩ rfl m
    exact ⟨visits, _, _, hgoes, rfl⟩

/-- **The prompt goes through its cues**, one for each line and one for the end of the input. -/
theorem plays_prompt (interrupted shows : Bool) (lines : List String) :
    Plays eval (lines.mapIdx (lineCue shows lines) ++ [lastCue interrupted])
      (prompt eval interrupted shows lines) := by
  induction lines generalizing shows with
  | nil =>
    intro m
    rw [prompt_nil]
    exact ⟨_, .next (.idle rfl (.off _)) (.done _)⟩
  | cons line rest ih =>
    intro m
    -- the cues count the lines `.e` from the first line on, the prompt keeps the display only
    have hrest : rest.mapIdx (fun k => lineCue shows (line :: rest) (k + 1)) =
        rest.mapIdx (lineCue (if line = ".e" then !shows else shows) rest) :=
      congrArg (List.mapIdx · rest) (funext fun k => lineCue_cons shows line rest k)
    obtain ⟨visits, r, m₁, hcue, hobey⟩ := goes_obeyLine eval shows line rest m
    rw [List.mapIdx_cons, hrest, List.cons_append, prompt_cons]
    cases r with
    | ok _ =>
      rw [Action.bind_ok _ (turn_of_ok hobey)]
      obtain ⟨log, hlog⟩ := ih (if line = ".e" then !shows else shows) m₁
      exact ⟨visits ++ log, .next hcue hlog⟩
    | error e =>
      cases hfarewell : farewell? e with
      | none =>
        rw [Action.bind_error _ ((turn_of_error hobey).trans (leave_of_uncaught hfarewell))]
        exact ⟨visits, .stopped hcue hfarewell⟩
      | some text =>
        rw [Action.bind_ok _ ((turn_of_error hobey).trans (leave_of_caught hfarewell))]
        exact ⟨visits, .left hcue hfarewell⟩

/-- What a session that is not refused does, up to the environment that it comes back to. -/
theorem exists_plays (eval : Evaluation) {s : Setting}
    (h : ¬ (s.forced = true ∧ s.terminal = false)) :
    ∃ x, Plays eval s.cues x ∧ interactive eval s = Action.inFrame (.record []) x := by
  have hrefused : (s.forced && !s.terminal) = false := by simpa using h
  have hnil : Plays eval [] (pure ()) := fun m => ⟨[], .done m⟩
  unfold interactive beforePrompt Setting.cues Setting.prompts
  rw [hrefused]
  cases s.terminal with
  | false =>
    refine ⟨_, (hnil.whole (.ok s.inputText) s.shows).files s s.fileNames, ?_⟩
    simp only [Bool.false_and, Bool.false_eq_true, if_false, Bool.not_false, if_true, bind_assoc]
    rfl
  | true =>
    cases s.fileNames.isEmpty || s.forced with
    | false =>
      refine ⟨_, hnil.files s s.fileNames, ?_⟩
      simp
    | true =>
      refine ⟨_, (plays_prompt s.interrupted s.shows (Text.lines s.input)).files s s.fileNames, ?_⟩
      simp

end Play

theorem interactive_refused (eval : Evaluation) {s : Setting}
    (h : s.forced = true ∧ s.terminal = false) (m : Machine) :
    interactive eval s m = (.error (.exited 1), ⟨m.environment,
      m.printed ++ "Can't use -i to force interaction with redirected input.\n"⟩) := by
  unfold interactive beforePrompt
  rw [h.1, h.2]
  rfl

/-- Only the flags that there are and the order of the files matter. -/
theorem interactive_of_perm (eval : Evaluation) {s : Setting} {arguments : List String}
    (hperm : arguments.Perm s.arguments)
    (hfiles : arguments.filter (!Setting.isFlag ·) = s.fileNames) :
    interactive eval { s with arguments := arguments } = interactive eval s := by
  have hflags : { s with arguments := arguments }.flags.Perm s.flags := hperm.filter _
  -- a flag is there or not, wherever it stands
  have hcontains : ∀ flag, { s with arguments := arguments }.flags.contains flag =
      s.flags.contains flag := by
    intro flag
    rw [Bool.eq_iff_iff, List.contains_iff_mem, List.contains_iff_mem]
    exact hflags.mem_iff
  have hforced : { s with arguments := arguments }.forced = s.forced := hcontains "-i"
  have hshows : { s with arguments := arguments }.shows = s.shows := hcontains "-e"
  have hnames : { s with arguments := arguments }.fileNames = s.fileNames := hfiles
  have hrun : ∀ names, runFiles eval { s with arguments := arguments } names =
      runFiles eval s names := by
    intro names
    induction names with
    | nil => rfl
    | cons name rest ih =>
      rw [runFiles, runFiles, ih, hshows]
      rfl
  unfold interactive beforePrompt Setting.prompts
  rw [hforced, hshows, hnames, hrun]

/-- **The course of a session**, whatever it does with its texts. If the prompt is asked for and
the input is not a terminal, the session says so and is over, whatever the files are. Otherwise it
goes through its cues. The texts are the files in order, then the whole input or the lines typed
without those that are `.e`, each of which switches the display. The first text finds nothing bound
and every later one what the text before it has left. The environment is shown where the cues say
so. The first fault ends the session, with what has been printed up to then: behind a text that
fails no other is run, and the fault is that of the session, unless it is one that is caught at the
prompt. Without a fault all texts are run. The places of the flags among the arguments do not
matter. -/
theorem interactive_course (eval : Evaluation) (s : Setting) (m : Machine) :
    (s.forced = true ∧ s.terminal = false →
      interactive eval s m = (.error (.exited 1), ⟨m.environment,
        m.printed ++ "Can't use -i to force interaction with redirected input.\n"⟩)) ∧
    (¬ (s.forced = true ∧ s.terminal = false) → ∃ log r after,
      interactive eval s m = (r, ⟨m.environment, after.printed⟩) ∧
      Course eval s.cues ⟨.record [], m.printed⟩ log r after ∧
      Threaded (.record []) log ∧
      log.map Visit.text <+: s.texts ∧
      (r = .ok () → (∀ visit ∈ log, visit.result = .ok ()) → log.map Visit.text = s.texts) ∧
      (∀ visit ∈ log.dropLast, visit.result = .ok ()) ∧
      ∀ visit ∈ log, ∀ e, visit.result = .error e →
        r = .error e ∨ r = .ok () ∧ (farewell? e).isSome = true) ∧
    ∀ arguments : List String, arguments.Perm s.arguments →
      arguments.filter (!Setting.isFlag ·) = s.fileNames →
      interactive eval { s with arguments := arguments } = interactive eval s := by
  refine ⟨fun h => interactive_refused eval h m, fun h => ?_,
    fun _ hperm hfiles => interactive_of_perm eval hperm hfiles⟩
  obtain ⟨x, hplays, hx⟩ := exists_plays eval h
  obtain ⟨log, hcourse⟩ := hplays ⟨.record [], m.printed⟩
  have htexts := hcourse.texts
  rw [s.cues_texts] at htexts
  refine ⟨log, _, _, ?_, hcourse, hcourse.threaded, htexts.1, htexts.2, hcourse.dropLast_ok,
    fun visit hvisit e hresult => ?_⟩
  · rw [hx]
    rfl
  · obtain hr | ⟨hr, hcaught⟩ := hcourse.of_error hvisit hresult
    · exact .inl hr
    · exact .inr ⟨hr, Option.isSome_iff_ne_none.2 hcaught⟩

/-- A session that counts its texts: a file, then a line that switches the display and a text. -/
theorem interactive_course_of_counting :
    interactive counting ⟨["-i"], "w", [], false, false⟩ ⟨.null, ""⟩ = (.error (.exited 1),
      ⟨.null, "" ++ "Can't use -i to force interaction with redirected input.\n"⟩) ∧
    (∃ log r after,
      interactive counting ⟨["q", "-i"], ".e\nw\n", [("q", "z")], true, false⟩ ⟨.null, ""⟩ =
        (r, ⟨.null, after.printed⟩) ∧
      Course counting (Setting.cues ⟨["q", "-i"], ".e\nw\n", [("q", "z")], true, false⟩)
        ⟨.record [], ""⟩ log r after ∧
      Threaded (.record []) log ∧
      log.map Visit.text <+: Setting.texts ⟨["q", "-i"], ".e\nw\n", [("q", "z")], true, false⟩ ∧
      (r = .ok () → (∀ visit ∈ log, visit.result = .ok ()) → log.map Visit.text =
        Setting.texts ⟨["q", "-i"], ".e\nw\n", [("q", "z")], true, false⟩)) ∧
    interactive counting ⟨["-i", "q"], ".e\nw\n", [("q", "z")], true, false⟩ =
      interactive counting ⟨["q", "-i"], ".e\nw\n", [("q", "z")], true, false⟩ := by
  have hforced : Setting.forced ⟨["-i"], "w", [], false, false⟩ = true := by
    simp [Setting.forced, Setting.flags, Setting.isFlag]
  have hfiles : ["-i", "q"].filter (!Setting.isFlag ·) =
      Setting.fileNames ⟨["q", "-i"], ".e\nw\n", [("q", "z")], true, false⟩ := by
    simp [Setting.fileNames, Setting.isFlag]
  obtain ⟨log, r, after, hrun, hcourse, hthreaded, hprefix, hall, -⟩ :=
    (interactive_course counting ⟨["q", "-i"], ".e\nw\n", [("q", "z")], true, false⟩
      ⟨.null, ""⟩).2.1 (by simp)
  refine ⟨(interactive_course counting _ _).1 ⟨hforced, rfl⟩,
    ⟨log, r, after, hrun, hcourse, hthreaded, hprefix, hall⟩, ?_⟩
  exact (interactive_course counting ⟨["q", "-i"], ".e\nw\n", [("q", "z")], true, false⟩
    ⟨.null, ""⟩).2.2 ["-i", "q"] (.swap _ _ _) hfiles

/-- The environment is to be shown and cannot be written. -/
theorem interactive_unwritten {v : Value} {e : Fault} (h : v.print = .error e) :
    interactive (fun _ => Action.setEnvironment v) ⟨["-e"], "w", [], false, false⟩ ⟨.null, ""⟩ =
      (.error e, ⟨.null, ""⟩) := by
  have hforced : Setting.forced ⟨["-e"], "w", [], false, false⟩ = false := by
    simp [Setting.forced, Setting.flags, Setting.isFlag]
  have hshows : Setting.shows ⟨["-e"], "w", [], false, false⟩ = true := by
    simp [Setting.shows, Setting.flags, Setting.isFlag]
  have hnames : Setting.fileNames ⟨["-e"], "w", [], false, false⟩ = [] := by
    simp [Setting.fileNames, Setting.isFlag]
  have hshow : showEnvironment ⟨v, ""⟩ = (.error e, ⟨v, ""⟩) := by
    rw [showEnvironment, Action.environment_bind, h]
    rfl
  have hbefore : beforePrompt (fun _ => Action.setEnvironment v) ⟨["-e"], "w", [], false, false⟩
      ⟨.record [], ""⟩ = (.error e, ⟨v, ""⟩) := by
    rw [beforePrompt, hforced, hnames, hshows]
    exact hshow
  exact Action.inFrame_eq (m := ⟨.null, ""⟩) (Action.bind_error _ hbefore)

/-- A text that fails need not be the fault of the session: at the prompt an interrupt is caught,
in a text that is not typed it is not. And the session can fail although no text does: an
environment that is to be shown may have an integer that cannot be written. -/
theorem session_fault_of_no_text :
    interactive (fun _ => throw .interrupt) ⟨[], "w\n", [], true, false⟩ ⟨.null, ""⟩ =
      (.ok (), ⟨.null, "% ^C exiting.\n"⟩) ∧
    interactive (fun _ => throw .interrupt) ⟨[], "w\n", [], false, false⟩ ⟨.null, ""⟩ =
      (.error .interrupt, ⟨.null, ""⟩) ∧
    interactive (fun _ => Action.setEnvironment (.int (10 ^ Value.digitLimit)))
        ⟨["-e"], "w", [], false, false⟩ ⟨.null, ""⟩ = (.error .numeralTooLong, ⟨.null, ""⟩) := by
  have hlimit : ∀ limit : Nat, 10 ^ limit ≤ ((10 : Int) ^ limit).natAbs := by
    intro limit
    exact (Int.natAbs_pow 10 limit).ge
  have hlong : (Value.int (10 ^ Value.digitLimit)).unwritable = true := by
    show decide (10 ^ Value.digitLimit ≤ ((10 : Int) ^ Value.digitLimit).natAbs) = true
    exact decide_eq_true (hlimit _)
  refine ⟨rfl, rfl, interactive_unwritten ?_⟩
  rw [Value.print, if_pos hlong]

end Stepwise.Session
