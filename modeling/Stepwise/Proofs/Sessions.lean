import Stepwise.Proofs.FaultOrigins
import Stepwise.Proofs.ParserSafety
import Stepwise.Proofs.Verdicts
import Stepwise.Session.Interactive

/-!
# What the texts of a session find

A session is a sequence of events (`Setting.events`): texts are run, environments
shown, prompts written. At the last stage a text that has been run leaves, in the
place of the environment, the flag that says whether it returned. So only the first
text of a session finds an environment, the empty one; every later one finds the
flag of the text before it, and none of the assignments made so far
(`text_finds_flag`).

- `turn_of_ok`, `turn_of_error`: what one turn at the prompt makes of a line. A
  fault that is caught there ends the session as the end of the input does
  (`leave_of_caught`);
- `ofStage_keeps`: no text of the last stage fails with such a fault. So its
  sessions obey their events up to the first fault (`interactive_eq`);
- `evaluations`: the texts that a session runs, each with the machine it finds;
- `Linked`: every text finds what the one before it has left. One event keeps the
  link (`obey_follows`), hence a whole session does (`evaluations_linked`).
-/

namespace Stepwise

/-- The machine after writing something. -/
def Machine.wrote (m : Machine) (text : String) : Machine :=
  ⟨m.environment, m.printed ++ text⟩

/-- What follows an action that keeps the environment ordinary matters only there. -/
theorem Keeps.bind_congr {α β : Type} {A : Fault → Prop} {P : α → Prop} {x : Action α}
    {f g : α → Action β} {m : Machine} (hx : Keeps A P x m)
    (h : ∀ a m₁, Name.Ordinary m₁.environment → f a m₁ = g a m₁) :
    (x >>= f) m = (x >>= g) m := by
  have hm₁ := hx.1
  cases hxm : x m with
  | mk r m₁ =>
    rw [hxm] at hm₁
    cases r with
    | ok a => rw [Action.bind_ok f hxm, Action.bind_ok g hxm, h a m₁ hm₁]
    | error e => rw [Action.bind_error f hxm, Action.bind_error g hxm]

namespace Session

/-! ## Turns at the prompt -/

/-- The fault ends a session also at the prompt. -/
def Uncaught (e : Fault) : Prop := farewell? e = none

theorem uncaught_iff {e : Fault} :
    Uncaught e ↔ e.kind ≠ .inputEnd ∧ e.kind ≠ .interrupt := by
  cases e <;> simp [Uncaught, farewell?, Fault.kind]

theorem farewell?_inputEnd (interrupted : Bool) :
    farewell? (inputEnd interrupted) = some (farewell interrupted) := by
  cases interrupted <;> rfl

section Turns

variable {eval : Evaluation} {interrupted shows : Bool} {line : String} {m m' : Machine}

theorem turn_some : turn eval interrupted shows (some line) =
    Action.handle (some <$> obeyLine eval shows line) leave := rfl

/-- A line that is obeyed leads to the next turn. -/
theorem turn_of_ok {shows' : Bool} (h : obeyLine eval shows line m = (.ok shows', m')) :
    turn eval interrupted shows (some line) m = (.ok (some shows'), m') := by
  rw [turn_some]
  exact Action.handle_ok _ (Action.bind_ok _ h)

/-- A fault of a line is met by the handlers of the turn. -/
theorem turn_of_error {e : Fault} (h : obeyLine eval shows line m = (.error e, m')) :
    turn eval interrupted shows (some line) m = leave e m' := by
  rw [turn_some]
  exact Action.handle_error _ (Action.bind_error _ h)

/-- The prompt is left with a farewell, and without a fault. -/
theorem leave_of_caught {e : Fault} {text : String} (he : farewell? e = some text) :
    leave e m = (.ok none, m.wrote (text ++ "\n")) := by
  rw [leave, he]
  rfl

/-- A fault that no handler catches ends the session with it. -/
theorem leave_of_uncaught {e : Fault} (he : Uncaught e) : leave e m = (.error e, m) := by
  rw [leave, he]
  rfl

/-- Where the input is over, reading fails, and that is caught. -/
theorem turn_none : turn eval interrupted shows none m =
    (.ok none, m.wrote (farewell interrupted ++ "\n")) :=
  leave_of_caught (farewell?_inputEnd interrupted)

/-- At the end of the input the farewell follows the sign. -/
theorem prompt_nil : prompt eval interrupted shows [] m =
    (.ok (), m.wrote (promptSign ++ farewell interrupted ++ "\n")) := by
  have hprompt : prompt eval interrupted shows [] m =
      (turn eval interrupted shows none >>= fun _ => pure ()) (m.wrote promptSign) := rfl
  rw [hprompt, Action.bind_ok _ turn_none]
  simp [Machine.wrote, String.append_assoc]

/-- A line follows the sign, and the rest of the input follows a turn that goes on. -/
theorem prompt_cons (rest : List String) : prompt eval interrupted shows (line :: rest) m =
    (do
      match ← turn eval interrupted shows (some line) with
      | some shows => prompt eval interrupted shows rest
      | none => pure ()) (m.wrote promptSign) := rfl

end Turns

/-! ## Events -/

/-- What happens in a session. -/
inductive Event where
  /-- A text is run. -/
  | run (text : String)
  /-- The environment is shown. -/
  | showing
  /-- The session itself writes something. -/
  | write (text : String)
  /-- The session ends with a fault of its own. -/
  | stop (fault : Fault)

/-- The text that is run. -/
def Event.text? : Event → Option String
  | .run text => some text
  | _ => none

/-- What a session does when an event happens. -/
def Event.obey (eval : Evaluation) : Event → Action Unit
  | .run text => eval text
  | .showing => showEnvironment
  | .write text => Action.print text
  | .stop fault => throw fault

/-- Obeys events in order. -/
def obeyAll (eval : Evaluation) : List Event → Action Unit
  | [] => pure ()
  | event :: rest => do
    event.obey eval
    obeyAll eval rest

/-- The events of one text. -/
def textEvents (shows : Bool) (text : String) : List Event :=
  .run text :: if shows then [.showing] else []

/-- The events of the files, up to one that cannot be read. -/
def fileEvents (s : Setting) : List String → List Event
  | [] => []
  | name :: rest =>
    match s.read name with
    | .ok text => textEvents s.shows text ++ fileEvents s rest
    | .error fault => [.stop fault]

/-- The events at the prompt. -/
def promptEvents (interrupted : Bool) : Bool → List String → List Event
  | _, [] => [.write (promptSign ++ farewell interrupted ++ "\n")]
  | shows, line :: rest =>
    .write promptSign ::
      if line = ".e" then
        (if shows then [] else [.showing]) ++ promptEvents interrupted (!shows) rest
      else textEvents shows line ++ promptEvents interrupted shows rest

/-- The whole input as one text. -/
def Setting.inputText (s : Setting) : String :=
  String.ofList (Text.unifyLineEnds s.input.toList)

/-- Redirected input is one text, and there is no prompt to read it again. -/
theorem Setting.prompts_of_redirected {s : Setting} (h : s.terminal = false) :
    s.prompts = false := by
  simp [Setting.prompts, h]

/-- All events of a session. -/
def Setting.events (s : Setting) : List Event :=
  if s.forced && !s.terminal then
    [.write "Can't use -i to force interaction with redirected input.\n", .stop (.exited 1)]
  else
    fileEvents s s.fileNames ++
      ((if s.terminal then [] else textEvents s.shows s.inputText) ++
        if s.prompts then promptEvents s.interrupted s.shows (Text.lines s.input) else [])

section Events

variable (eval : Evaluation)

/-- Events one behind the other are obeyed one behind the other. -/
theorem obeyAll_append (xs ys : List Event) :
    obeyAll eval (xs ++ ys) = (do obeyAll eval xs; obeyAll eval ys) := by
  induction xs with
  | nil => simp [obeyAll]
  | cons x xs ih => simp [obeyAll, ih]

/-- Running a text is obeying its events. -/
theorem runText_eq (shows : Bool) (text : String) :
    runText eval shows text = obeyAll eval (textEvents shows text) := by
  cases shows <;> simp [runText, textEvents, obeyAll, Event.obey]

/-- Running files is obeying their events: a file that cannot be read stops the session. -/
theorem runFiles_eq (s : Setting) (names : List String) :
    runFiles eval s names = obeyAll eval (fileEvents s names) := by
  induction names with
  | nil => rfl
  | cons name rest ih =>
    unfold runFiles fileEvents
    cases s.read name with
    | ok text =>
      rw [obeyAll_append, ← runText_eq, ← ih]
      rfl
    | error fault => rfl

/-- The events of a line at the prompt, and those of the lines behind it. -/
theorem obeyAll_promptEvents_cons (interrupted shows : Bool) (line : String) (rest : List String) :
    obeyAll eval (promptEvents interrupted shows (line :: rest)) = (do
      Action.print promptSign
      let shows ← obeyLine eval shows line
      obeyAll eval (promptEvents interrupted shows rest)) := by
  rw [promptEvents]
  unfold obeyLine
  by_cases hline : line = ".e"
  · cases shows <;> simp [hline, obeyAll, Event.obey]
  · simp [hline, obeyAll, Event.obey, obeyAll_append, runText_eq]

/-- The texts that are run, each with the machine that it finds. -/
def evaluations : List Event → Machine → List (Machine × String)
  | [], _ => []
  | event :: rest, m =>
    (event.text?.map fun text => (m, text)).toList ++
      match event.obey eval m with
      | (.ok _, m') => evaluations rest m'
      | (.error _, _) => []

/-- The texts that a session is given: the files, then the input or the lines typed. -/
def Setting.texts (s : Setting) : List String :=
  s.fileNames.filterMap (fun name => (s.read name).toOption) ++
    if s.terminal then
      if s.prompts then (Text.lines s.input).filter (· ≠ ".e") else []
    else [s.inputText]

/-- A session without a fault runs the texts of all its events. -/
theorem evaluations_texts : ∀ (events : List Event) (m : Machine) {m' : Machine},
    obeyAll eval events m = (.ok (), m') →
    (evaluations eval events m).map Prod.snd = events.filterMap Event.text?
  | [], _, _, _ => rfl
  | event :: rest, m, m', h => by
    obtain ⟨_, m₁, hfirst, hrest⟩ := Action.bind_eq_ok h
    have ih := evaluations_texts rest m₁ hrest
    unfold evaluations
    rw [hfirst, List.filterMap_cons]
    cases event <;> simp [Event.text?, ih]

theorem textEvents_texts (shows : Bool) (text : String) :
    (textEvents shows text).filterMap Event.text? = [text] := by
  cases shows <;> rfl

/-- The texts at the prompt are the lines, but for the command that shows the environment. -/
theorem promptEvents_texts (interrupted : Bool) : ∀ (shows : Bool) (lines : List String),
    (promptEvents interrupted shows lines).filterMap Event.text? = lines.filter (· ≠ ".e")
  | _, [] => rfl
  | shows, line :: rest => by
    unfold promptEvents
    rw [List.filterMap_cons]
    by_cases h : line = ".e"
    · cases shows <;>
        simp [h, Event.text?, List.filterMap_cons, promptEvents_texts interrupted _ rest]
    · simp [h, Event.text?, textEvents_texts, promptEvents_texts interrupted _ rest]

/-- The texts of the files are what they hold, where all of them can be read. -/
theorem fileEvents_texts (s : Setting) : ∀ (names : List String) {m m' : Machine},
    obeyAll eval (fileEvents s names) m = (.ok (), m') →
    (fileEvents s names).filterMap Event.text? =
      names.filterMap fun name => (s.read name).toOption
  | [], _, _, _ => rfl
  | name :: rest, m, m', h => by
    unfold fileEvents at h ⊢
    cases hread : s.read name with
    | error fault =>
      rw [hread] at h
      cases h
    | ok text =>
      rw [hread, obeyAll_append] at h
      obtain ⟨_, m₁, -, hrest⟩ := Action.bind_eq_ok h
      simp [hread, textEvents_texts, Except.toOption, fileEvents_texts s rest hrest]

/-- A session that does not fail is given the texts that its events run. -/
theorem events_texts {s : Setting} {m m' : Machine}
    (h : obeyAll eval s.events m = (.ok (), m')) : s.events.filterMap Event.text? = s.texts := by
  unfold Setting.events at h ⊢
  by_cases hexit : (s.forced && !s.terminal) = true
  · rw [if_pos hexit] at h
    cases h
  · rw [if_neg hexit] at h ⊢
    rw [obeyAll_append] at h
    obtain ⟨_, m₁, hfiles, -⟩ := Action.bind_eq_ok h
    unfold Setting.texts
    rw [List.filterMap_append, List.filterMap_append, fileEvents_texts eval s _ hfiles]
    cases hterminal : s.terminal with
    | false =>
      simp [Setting.prompts_of_redirected hterminal, textEvents_texts]
    | true => cases s.prompts <;> simp [promptEvents_texts]

end Events

/-! ## Sessions without caught faults -/

/-- The faults of operations are not caught. -/
theorem uncaught_of_operational {e : Fault} (h : e.Operational) : Uncaught e := by
  cases h <;> rfl

/-- Showing an ordinary environment may fail, but with no fault that is caught. -/
theorem showEnvironment_keeps {m : Machine} (hm : Name.Ordinary m.environment) :
    Keeps Uncaught (fun _ => True) showEnvironment m := by
  have henvironment : Keeps Uncaught (fun _ => True) Action.environment m := ⟨hm, trivial⟩
  refine henvironment.bind fun env m₁ _ hm₁ _ => ?_
  refine (Keeps.operation (fun _ => uncaught_of_operational) hm₁ env.print_answers).bind ?_
  exact fun text m₂ _ hm₂ _ => .print hm₂ _

/-- A file that cannot be read stops the session, with a fault that no handler catches. -/
theorem read_answers (s : Setting) (name : String) :
    Answers Uncaught (fun _ => True) (s.read name) := by
  unfold Setting.read
  split
  · trivial
  · exact .error rfl

section Keeping

variable {eval : Evaluation} {m : Machine}
  (heval : ∀ text {m : Machine}, Name.Ordinary m.environment →
    Keeps Uncaught (fun _ => True) (eval text) m)
include heval

theorem runText_keeps (shows : Bool) (text : String) (hm : Name.Ordinary m.environment) :
    Keeps Uncaught (fun _ => True) (runText eval shows text) m :=
  (heval text hm).bind fun _ _ _ hm₁ _ =>
    .ite (fun _ => showEnvironment_keeps hm₁) fun _ => .pure hm₁ trivial

theorem obeyLine_keeps (shows : Bool) (line : String) (hm : Name.Ordinary m.environment) :
    Keeps Uncaught (fun _ => True) (obeyLine eval shows line) m := by
  refine .ite (fun _ => ?_) fun _ => ?_
  · cases shows with
    | true => exact .pure hm trivial
    | false => exact (showEnvironment_keeps hm).bind fun _ _ _ hm₁ _ => .pure hm₁ trivial
  · exact (runText_keeps heval shows line hm).bind fun _ _ _ hm₁ _ => .pure hm₁ trivial

theorem runFiles_keeps (s : Setting) (names : List String) (hm : Name.Ordinary m.environment) :
    Keeps Uncaught (fun _ => True) (runFiles eval s names) m := by
  induction names generalizing m with
  | nil => exact .pure hm trivial
  | cons name rest ih =>
    have hfile : Keeps Uncaught (fun _ => True) (liftM (s.read name) : Action String) m :=
      ⟨hm, read_answers s name⟩
    exact hfile.bind fun text _ _ hm₁ _ =>
      (runText_keeps heval s.shows text hm₁).bind fun _ _ _ hm₂ _ => ih hm₂

/-- The handlers at the prompt have nothing to do. -/
theorem prompt_cons_of_keeps (interrupted shows : Bool) (line : String) (rest : List String)
    (hm : Name.Ordinary m.environment) :
    prompt eval interrupted shows (line :: rest) m =
      (obeyLine eval shows line >>= fun shows => prompt eval interrupted shows rest)
        (m.wrote promptSign) := by
  have hanswers := (obeyLine_keeps heval (m := m.wrote promptSign) shows line hm).2
  rw [prompt_cons]
  cases hline : obeyLine eval shows line (m.wrote promptSign) with
  | mk r m₁ =>
    rw [hline] at hanswers
    cases r with
    | ok shows' =>
      rw [Action.bind_ok _ (turn_of_ok hline), Action.bind_ok _ hline]
    | error e =>
      have hturn : turn eval interrupted shows (some line) (m.wrote promptSign) = (.error e, m₁) :=
        (turn_of_error hline).trans (leave_of_uncaught hanswers)
      rw [Action.bind_error _ hturn, Action.bind_error _ hline]

/-- **The prompt obeys its events**, where no line fails with a fault that is caught. -/
theorem prompt_eq (interrupted shows : Bool) (lines : List String)
    (hm : Name.Ordinary m.environment) :
    prompt eval interrupted shows lines m =
      obeyAll eval (promptEvents interrupted shows lines) m := by
  induction lines generalizing shows m with
  | nil =>
    rw [prompt_nil]
    rfl
  | cons line rest ih =>
    rw [prompt_cons_of_keeps heval interrupted shows line rest hm, obeyAll_promptEvents_cons]
    exact (obeyLine_keeps heval (m := m.wrote promptSign) shows line hm).bind_congr
      fun shows _ hm₁ => ih shows hm₁

/-- **A session obeys its events**, starting with nothing bound, if no text fails with a fault that
is caught at the prompt. -/
theorem interactive_eq (s : Setting) :
    interactive eval s = Action.inFrame (.record []) (obeyAll eval s.events) := by
  unfold interactive beforePrompt Setting.events
  by_cases hexit : (s.forced && !s.terminal) = true
  · simp only [hexit, if_true]
    rfl
  · simp only [hexit, runText_eq]
    cases hterminal : s.terminal with
    | false =>
      simp [Setting.prompts_of_redirected hterminal, runFiles_eq, obeyAll_append,
        Setting.inputText]
    | true =>
      have hfiles (m : Machine) :=
        (runFiles_keeps heval (m := ⟨.record [], m.printed⟩) s s.fileNames .empty).bind_congr
          (f := fun _ => if s.prompts then
            prompt eval s.interrupted s.shows (Text.lines s.input) else pure ())
          (g := fun _ => obeyAll eval (if s.prompts then
            promptEvents s.interrupted s.shows (Text.lines s.input) else []))
          fun _ m₁ hm₁ => by
            split
            · exact prompt_eq heval _ _ _ hm₁
            · rfl
      funext m
      exact Action.inFrame_congr (by simpa [obeyAll_append, runFiles_eq] using hfiles m)

end Keeping

/-! ## Following a session -/

section Following

variable {eval : Evaluation} {rest : List Event} {env : Value} {printed : String}

theorem obeyAll_write (text : String) :
    obeyAll eval (.write text :: rest) ⟨env, printed⟩ = obeyAll eval rest ⟨env, printed ++ text⟩ :=
  rfl

theorem obeyAll_showing {text : String} (h : env.print = .ok text) :
    obeyAll eval (.showing :: rest) ⟨env, printed⟩ =
      obeyAll eval rest ⟨env, printed ++ (text ++ "\n")⟩ := by
  have hshow : showEnvironment ⟨env, printed⟩ = (.ok (), ⟨env, printed ++ (text ++ "\n")⟩) := by
    unfold showEnvironment
    rw [Action.environment_bind, h]
    rfl
  exact Action.bind_ok _ hshow

theorem obeyAll_run {text : String} {m m' : Machine} (h : eval text m = (.ok (), m')) :
    obeyAll eval (.run text :: rest) m = obeyAll eval rest m' :=
  Action.bind_ok _ h

end Following

/-! ## The last stage -/

/-- Reading a program does not fail with a fault that is caught at the prompt. -/
theorem tree_uncaught {st : Stage} {code : String} {e : Fault}
    (h : Program.tree st code = .error e) : Uncaught e := by
  unfold Program.tree at h
  cases htokens : tokenize st code with
  | error e' =>
    rw [htokens] at h
    cases h
    obtain rfl | rfl := tokenize_error htokens <;> rfl
  | ok ts =>
    rw [htokens] at h
    have hkind := parse_error_kind (.append_ending (tokenize_full st code ts htokens)) h
    rw [uncaught_iff]
    obtain hkind | hkind := hkind <;> simp [hkind]

/-- Running one does not, either, where the environment is ordinary. -/
theorem run_keeps {m : Machine} (code : String) (hm : Name.Ordinary m.environment) :
    Keeps Uncaught Completion.Ordinary (Program.run .returns code) m := by
  -- the text has a runnable tree, or is refused with a fault that is not caught
  have htree :
      Keeps Uncaught Tree.Runnable (liftM (Program.tree .returns code) : Action Tree) m := by
    refine ⟨hm, ?_⟩
    show Answers _ _ (Program.tree .returns code)
    cases h : Program.tree .returns code with
    | ok t => exact Program.tree_runnable h
    | error e => exact tree_uncaught h
  refine htree.bind fun t m₁ _ hm₁ ht => ?_
  obtain ⟨hm₂, hanswers⟩ := Returning.evaluate_keeps Program.budget .statement ht hm₁
  refine ⟨hm₂, hanswers.imp ?_ fun _ h => h⟩
  rintro e (rfl | ⟨t, m, horigin⟩)
  · rfl
  -- what the evaluator itself raises is of another kind, and an operation's fault is operational
  · cases horigin with
    | emptyBlock | truth | unbound | miscall => rfl
    | operation _ _ he => exact uncaught_of_operational he

/-- **No text fails with a fault that is caught at the prompt.** It leaves a flag, or by another
fault an environment that is as ordinary as before. -/
theorem ofStage_keeps (text : String) {m : Machine} (hm : Name.Ordinary m.environment) :
    Keeps Uncaught (fun _ => True) (ofStage .returns text) m :=
  (run_keeps (wrap .returns text) hm).bind fun done _ _ _ _ => ⟨.flag done.returning, trivial⟩

/-- What the text before leaves for the next one to find: at first nothing bound, later only
the flag of a run that has succeeded. -/
def Follows : Option (Machine × String) → Value → Prop
  | none, env => env = .record []
  | some (m, text), env => ∃ done m',
      Program.run .returns (wrap .returns text) m = (.ok done, m') ∧ env = .bool done.returning

/-- Each text finds what the one before it has left. -/
def Linked : Option (Machine × String) → List (Machine × String) → Prop
  | _, [] => True
  | before, (m, text) :: rest => Follows before m.environment ∧ Linked (some (m, text)) rest

/-- Showing the environment does not change it. -/
theorem showEnvironment_environment (m : Machine) :
    (showEnvironment m).2.environment = m.environment := by
  unfold showEnvironment Action.printLine
  rw [Action.environment_bind]
  cases m.environment.print <;> rfl

/-- A text that has been run leaves the flag of its completion. -/
theorem ofStage_eq_ok {text : String} {m m' : Machine}
    (h : ofStage .returns text m = (.ok (), m')) : Follows (some (m, text)) m'.environment := by
  obtain ⟨done, m₁, hrun, hflag⟩ := Action.bind_eq_ok h
  cases hflag
  exact ⟨done, m₁, hrun, rfl⟩

/-- One event that does not fail: a text links to the next one, and all else keeps the link. -/
theorem obey_follows {event : Event} {before : Option (Machine × String)} {m m' : Machine}
    (hbefore : Follows before m.environment)
    (h : event.obey (ofStage .returns) m = (.ok (), m')) :
    Follows ((event.text?.map fun text => (m, text)).or before) m'.environment := by
  cases event with
  | run text => exact ofStage_eq_ok h
  | showing =>
    have henv := showEnvironment_environment m
    have hm' : (showEnvironment m).2 = m' := congrArg Prod.snd h
    rw [hm'] at henv
    simpa [Event.text?, henv] using hbefore
  | write text =>
    cases h
    exact hbefore
  | stop fault => cases h

/-- **A session is linked**, by induction on its events: every text finds what the one before it has
left. -/
theorem evaluations_linked : ∀ (events : List Event) (before : Option (Machine × String))
    (m : Machine), Follows before m.environment →
    Linked before (evaluations (ofStage .returns) events m)
  | [], _, _, _ => trivial
  | event :: rest, before, m, hbefore => by
    unfold evaluations
    cases hobey : event.obey (ofStage .returns) m with
    | mk r m' =>
      cases r with
      | ok _ =>
        -- the text before the rest is the one just run, or still the one before
        have ih := evaluations_linked rest _ m' (obey_follows hbefore hobey)
        cases event with
        | run text => exact ⟨hbefore, ih⟩
        | showing | write | stop => exact ih
      | error _ =>
        cases event with
        | run text => exact ⟨hbefore, trivial⟩
        | showing | write | stop => trivial

/-- The link of any two neighbours, by their places. -/
theorem Linked.getElem? : ∀ {before : Option (Machine × String)} {l : List (Machine × String)},
    Linked before l → ∀ {k : Nat} {x : Machine × String}, l[k]? = some x →
      (k = 0 → Follows before x.1.environment) ∧
      ∀ j, k = j + 1 → ∃ y, l[j]? = some y ∧ Follows (some y) x.1.environment
  | _, [], _, _, _, hx => by simp at hx
  | _, (m, text) :: rest, h, 0, x, hx => by
    simp only [List.getElem?_cons_zero, Option.some.injEq] at hx
    subst hx
    exact ⟨fun _ => h.1, fun j hj => by simp at hj⟩
  | _, (m, text) :: rest, h, k + 1, x, hx => by
    -- a place further on is a place in the rest, whose predecessor may be the first one
    have ih := h.2.getElem? (by simpa using hx)
    refine ⟨fun hk => by simp at hk, ?_⟩
    rintro j hj
    obtain rfl : k = j := by simpa using hj
    cases k with
    | zero => exact ⟨(m, text), rfl, ih.1 rfl⟩
    | succ k => simpa using ih.2 k rfl

/-- **Only the first text of a session finds an environment.** A session of the last stage obeys
its events and, if it does not fail, runs the texts that it is given in order. The first text
finds nothing bound, as it should. Every later text finds, in the place of the environment, the
flag that says whether the text before it returned: the environment that the text before it
left, with all assignments so far, is lost. -/
theorem text_finds_flag (s : Setting) (printed : String) :
    interactive (ofStage .returns) s =
      Action.inFrame (.record []) (obeyAll (ofStage .returns) s.events) ∧
    (∀ m', obeyAll (ofStage .returns) s.events ⟨.record [], printed⟩ = (.ok (), m') →
      (evaluations (ofStage .returns) s.events ⟨.record [], printed⟩).map Prod.snd = s.texts) ∧
    ∀ k m text,
      (evaluations (ofStage .returns) s.events ⟨.record [], printed⟩)[k]? = some (m, text) →
        (k = 0 → m.environment = .record []) ∧
        ∀ j, k = j + 1 → ∃ m₁ text₁ done m₂,
          (evaluations (ofStage .returns) s.events ⟨.record [], printed⟩)[j]? =
            some (m₁, text₁) ∧
          Program.run .returns (wrap .returns text₁) m₁ = (.ok done, m₂) ∧
          m.environment = .bool done.returning := by
  refine ⟨interactive_eq ofStage_keeps s, fun m' h => ?_, fun k m text hk => ?_⟩
  · rw [evaluations_texts _ _ _ h]
    exact events_texts _ h
  · have hlinked : Linked none (evaluations (ofStage .returns) s.events ⟨.record [], printed⟩) :=
      evaluations_linked s.events none _ rfl
    obtain ⟨hfirst, hlater⟩ := hlinked.getElem? hk
    refine ⟨hfirst, fun j hj => ?_⟩
    obtain ⟨⟨m₁, text₁⟩, hj, done, m₂, hrun, henv⟩ := hlater j hj
    exact ⟨m₁, text₁, done, m₂, hj, hrun, henv⟩

/-- The text `x=1` binds `x`, and leaves the flag of a text that has not returned. -/
theorem run_assignment (printed : String) :
    Program.run .returns (wrap .returns "x=1") ⟨.record [], printed⟩ =
      (.ok ⟨.null, false⟩, ⟨.record [("x", .int 1)], printed⟩) := by
  have htree : Program.tree .returns (wrap .returns "x=1") = .ok (Tree.block [
      Tree.assign .returns (Tree.leaf .returns "<identifier>" (.text "x"))
        (Tree.leaf .returns "<number>" (.int 1))]) := by rfl
  unfold Program.run
  rw [htree]
  rfl

theorem ofStage_assignment (printed : String) :
    ofStage .returns "x=1" ⟨.record [], printed⟩ = (.ok (), ⟨.bool false, printed⟩) :=
  Action.bind_ok _ (run_assignment printed)

/-- Of the lines `x=1` and `2`, the second one finds a flag. -/
theorem text_finds_flag_of_lines :
    ∃ (m : Machine) (flag : Bool),
      (evaluations (ofStage .returns) (Setting.events ⟨[], "x=1\n2\n", [], true, false⟩)
        ⟨.record [], ""⟩)[1]? = some (m, "2") ∧ m.environment = .bool flag := by
  have hevents : Setting.events ⟨[], "x=1\n2\n", [], true, false⟩ =
      [.write "% ", .run "x=1", .write "% ", .run "2", .write "%  exiting.\n"] := by rfl
  have hsecond : (evaluations (ofStage .returns)
      (Setting.events ⟨[], "x=1\n2\n", [], true, false⟩) ⟨.record [], ""⟩)[1]? =
        some (⟨.bool false, "% % "⟩, "2") := by
    rw [hevents]
    simp [evaluations, Event.text?, Event.obey, Action.print, ofStage_assignment]
  obtain ⟨-, hlater⟩ :=
    (text_finds_flag ⟨[], "x=1\n2\n", [], true, false⟩ "").2.2 1 _ "2" hsecond
  obtain ⟨m₁, text₁, done, m₂, -, -, henv⟩ := hlater 0 rfl
  exact ⟨_, _, hsecond, henv⟩

/-- The text `x=1` leaves `x` bound to 1, and a session that has run it shows a flag. -/
theorem session_loses_assignment :
    (Program.run .returns (wrap .returns "x=1") ⟨.record [], ""⟩).2.environment =
      .record [("x", .int 1)] ∧
    (interactive (ofStage .returns) ⟨[], ".e\nx=1\n", [], true, false⟩ ⟨.record [], ""⟩).2.printed =
      "% \x7b\x7d\n% False\n%  exiting.\n" := by
  have hevents : Setting.events ⟨[], ".e\nx=1\n", [], true, false⟩ =
      [.write "% ", .showing, .write "% ", .run "x=1", .showing, .write "%  exiting.\n"] := by rfl
  have hempty : Value.print (.record []) = .ok "\x7b\x7d" := by rfl
  have hfalse : Value.print (.bool false) = .ok "False" := by rfl
  have hall : obeyAll (ofStage .returns) (Setting.events ⟨[], ".e\nx=1\n", [], true, false⟩)
      ⟨.record [], ""⟩ = (.ok (), ⟨.bool false, "% \x7b\x7d\n% False\n%  exiting.\n"⟩) := by
    rw [hevents, obeyAll_write, obeyAll_showing hempty, obeyAll_write,
      obeyAll_run (ofStage_assignment _), obeyAll_showing hfalse, obeyAll_write]
    rfl
  refine ⟨by rw [run_assignment], ?_⟩
  rw [interactive_eq ofStage_keeps]
  unfold Action.inFrame
  rw [hall]

end Session

end Stepwise
