import Lisp.Session
import Lisp.Text.Blank

/-!
# The command line

Running a program file with arguments, or reading lines and answering each. A line that is answered
has been edited, and no other text has. All that is written goes to the two streams of the host; an
answer that the output refuses is dropped.
-/

namespace Lisp.CommandLine

/-- The text that explains the command line. -/
def usage : String :=
  "Usage:\n" ++
  "  tramp                      Start interactive REPL\n" ++
  "  tramp <file> [args...]     Run a file with *ARGV* bound to args\n" ++
  "  tramp --help               Show this help message\n"

/-- Reports an error on a line. -/
def report (e : Error) : Run Unit := do
  let message ← match e with
    | .thrown v => Run.shown .display v
    | e => Run.inspect (·.errorMessage e)
  .update (·.complain ("Error: " ++ message ++ "\n"))

/-- Answers one line with a value or an error report. Blank lines and lines without forms are
passed over. -/
def answer (n : Nat) (scope : Scope) (line : List Char) : Run Unit :=
  if line.all isBlank then return ()
  else
    Run.handle (Session.evalPrint n scope (String.ofList line))
      (fun shown => do
        let _ ← Run.modify (·.write (shown ++ "\n"))
        return ())
      fun
        | .emptyInput => return ()
        | e => report e

/-- Answers up to `lines` lines of input; the programs on them may read lines too. -/
def answerLines (n : Nat) (scope : Scope) : Nat → Run Unit
  | 0 => return ()
  | lines + 1 => do
    match ← Run.request (.stream "readline") (·.readLine) with
    | [] => return ()
    | line => do
      answer n scope (← Run.inspect (·.host.edited line))
      answerLines n scope lines

/-- Answers all lines of the input. Every line takes a character at least, so there are no more
lines than characters. -/
def interact (n : Nat) (scope : Scope) : Run Unit := do
  answerLines n scope ((← Run.inspect (·.host.input.length)) + 1)

/-- Runs a program file. -/
def runFile (n : Nat) (scope : Scope) (path : String) (args : List String) : Run Unit := do
  Session.setArguments scope args
  let _ ← Session.loadFile n scope path
  return ()

/-- What a program leaves behind. -/
structure Exit where
  code : UInt8
  host : Host

/-- Runs a program to its exit; an error is reported and makes the exit code one. -/
def exitOf (program : Run Unit) (host : Host) : Exit :=
  let reported := program.handle (fun _ => return 0) fun e => do
    report e
    return 1
  match reported (.initial host) with
  | .done code s => ⟨code, s.host⟩
  | .failed _ s => ⟨1, s.host⟩
  | .unfinished => ⟨1, host⟩

/-- Runs the program with its arguments. -/
def run (n : Nat) (args : List String) (host : Host) : Exit :=
  match args with
  | [] => exitOf (do interact n (← Session.start n)) host
  | path :: more =>
    if path = "--help" ∨ path = "-h" then ⟨0, host.complain usage⟩
    else exitOf (do runFile n (← Session.start n) path more) host

end Lisp.CommandLine
