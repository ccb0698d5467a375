import Stepwise.Program

/-!
# Interactive sessions

A session runs texts one after the other in one environment: the files named on
the command line, then what is typed at the prompt, or the whole input if it is
not a terminal. The flag `-e`, and the line `.e` at the prompt, have the
environment shown after each text; `-i` asks for the prompt after files.

A fault ends the session. At the prompt the end of the input and an interrupt do
so with a farewell and without a fault, wherever they come from: reading the next
line, or the text that is run.

The session does not depend on the language: `Evaluation` is what it does with a
text. `ofStage` is a stage's own, `counting` only counts the texts.
-/

namespace Stepwise.Session

/-- What a session does with a text. -/
abbrev Evaluation := String → Action Unit

/-- Where a session takes place. -/
structure Setting where
  arguments : List String
  input : String
  files : List (String × String)
  /-- The input is a terminal. -/
  terminal : Bool
  /-- The input ends by an interrupt. -/
  interrupted : Bool

namespace Setting

/-- An argument that starts with a dash. -/
def isFlag (argument : String) : Bool :=
  argument.startsWith "-"

/-- The flags among the arguments. -/
def flags (s : Setting) : List String :=
  s.arguments.filter isFlag

/-- The file names among the arguments. -/
def fileNames (s : Setting) : List String :=
  s.arguments.filter (!isFlag ·)

/-- The environment is shown from the start. -/
def shows (s : Setting) : Bool :=
  s.flags.contains "-e"

/-- The prompt is asked for even if there are files. -/
def forced (s : Setting) : Bool :=
  s.flags.contains "-i"

/-- The text of a file. -/
def read (s : Setting) (name : String) : Except Fault String :=
  match s.files.lookup name with
  | some text => .ok (String.ofList (Text.unifyLineEnds text.toList))
  | none => .error (.missingFile name)

end Setting

/-- Prints the environment. -/
def showEnvironment : Action Unit := do
  Action.printLine (← (← Action.environment).print)

/-- Runs a text and, if asked to, shows the environment after it. -/
def runText (eval : Evaluation) (shows : Bool) (text : String) : Action Unit := do
  eval text
  if shows then showEnvironment

/-- Runs files in order. -/
def runFiles (eval : Evaluation) (s : Setting) : List String → Action Unit
  | [] => pure ()
  | name :: rest => do
    runText eval s.shows (← s.read name)
    runFiles eval s rest

/-- What the prompt looks like. -/
def promptSign : String := "% "

/-- The last line of a session at the prompt. -/
def farewell (interrupted : Bool) : String :=
  if interrupted then "^C exiting." else " exiting."

/-- The last line of a session that leaves the prompt by this fault; most faults are not caught. -/
def farewell? : Fault → Option String
  | .endOfInput => some (farewell false)
  | .interrupt => some (farewell true)
  | _ => none

/-- How reading fails where the input is over. -/
def inputEnd (interrupted : Bool) : Fault :=
  if interrupted then .interrupt else .endOfInput

/-- Obeys one line typed at the prompt, and says whether the environment is shown from now on. -/
def obeyLine (eval : Evaluation) (shows : Bool) (line : String) : Action Bool := do
  if line = ".e" then
    if !shows then showEnvironment
    return !shows
  else
    runText eval shows line
    return shows

/-- Leaves the prompt by a fault that is caught there; every other fault is passed on. -/
def leave (fault : Fault) : Action (Option Bool) :=
  match farewell? fault with
  | some text => do
    Action.printLine text
    return none
  | none => throw fault

/--
One turn at the prompt: reads a line, if there is one, and obeys it. Says whether
the environment is shown from now on, or nothing if the prompt is left.
-/
def turn (eval : Evaluation) (interrupted shows : Bool) (line? : Option String) :
    Action (Option Bool) :=
  try
    match line? with
    | some line => some <$> obeyLine eval shows line
    | none => throw (inputEnd interrupted)
  catch fault => leave fault

/-- Takes turns at the prompt until it is left. -/
def prompt (eval : Evaluation) (interrupted shows : Bool) : List String → Action Unit
  | [] => do
    Action.print promptSign
    let _ ← turn eval interrupted shows none
  | line :: rest => do
    Action.print promptSign
    match ← turn eval interrupted shows (some line) with
    | some shows => prompt eval interrupted shows rest
    | none => return

/-- The prompt appears at a terminal, if there are no files or it is asked for. -/
def Setting.prompts (s : Setting) : Bool :=
  s.terminal && (s.fileNames.isEmpty || s.forced)

/-- What comes before the prompt: the files and, if it is not a terminal, the whole input. -/
def beforePrompt (eval : Evaluation) (s : Setting) : Action Unit := do
  if s.forced && !s.terminal then
    Action.printLine "Can't use -i to force interaction with redirected input."
    throw (.exited 1)
  runFiles eval s s.fileNames
  if !s.terminal then
    runText eval s.shows (String.ofList (Text.unifyLineEnds s.input.toList))

/-- A whole session, starting with nothing bound. -/
def interactive (eval : Evaluation) (s : Setting) : Action Unit :=
  Action.inFrame (.record []) do
    beforePrompt eval s
    if s.prompts then prompt eval s.interrupted s.shows (Text.lines s.input)

/-- A text of several statements, from `blocks` on as a block. -/
def wrap (st : Stage) (text : String) : String :=
  if st.has .blocks then "\x7b" ++ text ++ "\x7d" else text

/--
Runs a text in the session's environment. At the stage of `returns` the next
text finds in its place the flag that says whether this one returned.
-/
def ofStage (st : Stage) : Evaluation := fun text => do
  let done ← Program.run st (wrap st text)
  if st = .returns then Action.setEnvironment (.bool done.returning)

/-- Counts the texts under the name `n`. -/
def counting : Evaluation := fun _ => do
  let env ← Action.environment
  let n := match env with
    | .record fields => (Fields.get? "n" fields).getD (.int 0)
    | _ => .int 0
  Action.assign (.text "n") (← n.add (.int 1))

end Stepwise.Session
