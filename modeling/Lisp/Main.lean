import Lisp.CommandLine
import Lisp.Host.Standard
import Std.Time.DateTime.Timestamp

/-!
# The program

The command line connected to the files and streams of the machine. Running a program is a
function of what the machine holds, so it is run on what has been fetched so far. If it asks for
a file, a line or a time that has not, that is fetched and the program is run again from the start;
what it had written before that request stays written.
-/

namespace Lisp

/-- What has been fetched from the machine and how much has been written to it. -/
structure Machine where
  files : List (String × Except HostError String)
  input : String
  ended : Bool
  /-- The times at which the clock was read, in milliseconds. -/
  times : Array Nat
  output : Nat
  errors : Nat

/-- The host that holds what has been fetched. -/
def Machine.host (m : Machine) : Host :=
  { Host.empty with
    files := fun path => (m.files.lookup path).getD (.error .notFound)
    input := m.input.toList
    clock := fun before => .ok (m.times.getD before 0) }

/-- Whether a request was answered from what has been fetched. -/
def Machine.knows (m : Machine) : Request → Bool
  | .file path => (m.files.lookup path).isSome
  | .line => m.ended
  | .time before => before < m.times.size

/-- The cause behind a number of the system, which some calls hand over negated. -/
def refusalOf (code : UInt32) (details : String) : HostError :=
  match (min code (0 - code)).toNat with
  | 2 => .notFound
  | 20 => .notDirectory
  | 21 => .isDirectory
  | 36 => .nameTooLong
  | code => .refused (details ++ " (os error " ++ toString code ++ ")")

/-- The cause of a refused read. -/
def refusal : IO.Error → HostError
  | .noFileOrDirectory .. => .notFound
  | .inappropriateType _ code details | .invalidArgument _ code details
  | .permissionDenied _ code details | .noSuchThing _ code details => refusalOf code details
  | e => .refused e.toString

/-- Reads the file at a path. -/
def fetchFile (path : String) : IO (Except HostError String) := do
  if path.toList.contains '\x00' then return .error .nulInPath
  try
    match String.fromUTF8? (← IO.FS.readBinFile path) with
    | some text => return .ok text
    | none => return .error .notText
  catch e => return .error (refusal e)

/-- Reads a stream to its end. -/
partial def readToEnd (stream : IO.FS.Stream) (text : String) : IO String := do
  let line ← stream.getLine
  if line.isEmpty then return text else readToEnd stream (text ++ line)

/-- Fetches what a request asks for. From a terminal only one line at a time is taken. -/
def Machine.fetch (m : Machine) : Request → IO Machine
  | .file path => return { m with files := (path, ← fetchFile path) :: m.files }
  | .line => do
    let stdin ← IO.getStdin
    if ← stdin.isTty then
      let line ← stdin.getLine
      return { m with input := m.input ++ line, ended := line.isEmpty }
    else return { m with input := ← readToEnd stdin m.input, ended := true }
  | .time _ => do
    let now ← Std.Time.Timestamp.now
    return { m with times := m.times.push now.toMillisecondsSinceUnixEpoch.val.toNat }

/-- Writes the bytes of `text` from one count to another. -/
def writePart (stream : IO.FS.Stream) (text : String) (start stop : Nat) : IO Unit := do
  if start < stop then
    stream.write (text.toUTF8.extract start stop)
    stream.flush

/-- Writes what a program wrote up to these counts. -/
def Machine.write (m : Machine) (host : Host) (output errors : Nat) : IO Machine := do
  writePart (← IO.getStdout) host.output m.output output
  writePart (← IO.getStderr) host.errors m.errors errors
  return { m with output := max m.output output, errors := max m.errors errors }

/-- Runs the program until it asks for nothing that has not been fetched. -/
partial def runProgram (args : List String) (m : Machine) : IO UInt32 := do
  let exit := CommandLine.run Session.lifetime args m.host
  match exit.host.asked.reverse.find? fun a => !m.knows a.request with
  | some a =>
    let m ← m.write exit.host a.output a.errors
    runProgram args (← m.fetch a.request)
  | none =>
    let _ ← m.write exit.host exit.host.output.utf8ByteSize exit.host.errors.utf8ByteSize
    return exit.code.toUInt32

end Lisp

/-- Runs the program on the machine. -/
def main (args : List String) : IO UInt32 :=
  Lisp.runProgram args ⟨[], "", false, #[], 0, 0⟩
