import Stepwise.Program

/-!
# Programs line by line

Every line that is not blank is a program: its outline is shown between two
rules, then it is run and its result shown. The environment goes on from line to
line, and a fault ends the whole.
-/

namespace Stepwise.Session

/-- Shows and runs one program. -/
def showAndRun (st : Stage) (code : String) : Action Unit := do
  let tree ← Program.tree st code
  Action.printLine "---"
  Action.printLine (← Tree.outline st tree 0)
  Action.printLine "---"
  let result := (← evaluate st Program.budget .statement tree).value
  Action.printLine (← result.print)

/-- Runs one line, unless it is blank. -/
def runLine (st : Stage) (line : String) : Action Unit :=
  let code := Text.strip line.toList
  if code.isEmpty then pure () else showAndRun st (String.ofList code)

/-- Runs the lines in order. -/
def runLines (st : Stage) : List String → Action Unit
  | [] => pure ()
  | line :: rest => do
    runLine st line
    runLines st rest

/-- Runs all lines of a text, starting with nothing bound. -/
def byLine (st : Stage) (input : String) : Action Unit :=
  Action.inFrame (.record []) (runLines st (Text.lines input))

end Stepwise.Session
