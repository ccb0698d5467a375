import Stepwise.Session.Interactive
import Stepwise.Session.Lines

/-!
# Command line

The first argument is the number of a stage. The first two stages read programs
line by line from standard input. The later ones open a session with the other
arguments; stage 0 is a session that only counts texts.
-/

namespace Stepwise.CommandLine

/-- Prints what an action printed, and a fault on the error stream; gives the exit code. -/
def report (result : Except Fault Unit × Machine) : IO UInt32 := do
  IO.print result.2.printed
  match result.1 with
  | .ok _ => return 0
  | .error (.exited code) => return UInt32.ofNat code.toNat
  | .error fault => do
    IO.eprintln (fault.message?.getD "the program failed")
    return 1

/-- Takes turns at the prompt, each before the next line is read. -/
partial def converse (eval : Session.Evaluation) (shows : Bool) (env : Value) : IO UInt32 := do
  IO.print Session.promptSign
  (← IO.getStdout).flush
  let line ← (← IO.getStdin).getLine
  let text := String.ofList (line.toList.filter fun c => c != '\n' && c != '\r')
  let line? := if line.isEmpty then none else some text
  match (Session.turn eval false shows line?).run env with
  | (.ok (some shows), m) => do
    IO.print m.printed
    converse eval shows m.environment
  | (.ok none, m) => report (.ok (), m)
  | (.error fault, m) => report (.error fault, m)

/-- The named files that can be read. -/
def readFiles (names : List String) : IO (List (String × String)) :=
  names.filterMapM fun (name : String) => do
    try
      let text ← IO.FS.readFile name
      return some (name, text)
    catch _ => return none

/-- A session with the given arguments. -/
def session (eval : Session.Evaluation) (arguments : List String) : IO UInt32 := do
  let stdin ← IO.getStdin
  let terminal ← stdin.isTty
  let input ← if terminal then pure "" else stdin.readToEnd
  let files ← readFiles (arguments.filter (!Session.Setting.isFlag ·))
  let setting : Session.Setting := ⟨arguments, input, files, terminal, false⟩
  match (Session.beforePrompt eval setting).run (.record []) with
  | (.ok _, m) => do
    IO.print m.printed
    if setting.prompts then converse eval setting.shows m.environment else return 0
  | (.error fault, m) => report (.error fault, m)

/-- Runs the stage with the given number. -/
def start (rank : Nat) (arguments : List String) : IO UInt32 := do
  match Stage.ofRank? rank with
  | none => session Session.counting arguments
  | some st =>
    if st.has .booleans then session (Session.ofStage st) arguments
    else report ((Session.byLine st (← (← IO.getStdin).readToEnd)).run .null)

end Stepwise.CommandLine

/-- The number of a stage, then what its session is to do. -/
def main (arguments : List String) : IO UInt32 :=
  match arguments with
  | number :: rest => Stepwise.CommandLine.start (number.toNat?.getD 0) rest
  | [] => do
    IO.eprintln "usage: stepwise STAGE [-e] [-i] [FILE ...]"
    return 2
