import Lisp.Error

/-!
# The world around a program

What a program can see and change outside of its own memory: files to read, lines of input, the
two streams written so far, the clock, and how a text falls into the characters that a reader sees.
What the world answers is given by functions, so that anything can stand behind it, and it may
refuse to read or to write. What the program asked for is noted down, so that a host can tell
whether it held everything that was needed.
-/

namespace Lisp

/-- A way to cut texts into pieces. No piece is empty, and together they make up the text. -/
structure Segmentation where
  pieces : String → List String
  ne_empty : ∀ text, ∀ piece ∈ pieces text, piece ≠ ""
  join_pieces : ∀ text, String.join (pieces text) = text

/-- Every character is a piece of its own. -/
def Segmentation.characters : Segmentation where
  pieces text := text.toList.map (String.singleton ·)
  ne_empty text piece h := by
    obtain ⟨c, -, rfl⟩ := List.mem_map.mp h
    exact String.singleton_ne_empty
  join_pieces text := by
    apply String.toList_injective
    simp [String.toList_join, List.flatMap_map]

/-- Something that a program asked its host for. -/
inductive Request
  | file (path : String)
  /-- A line of input when none was left. -/
  | line
  /-- The time, when it had been asked for so often. -/
  | time (before : Nat)
  deriving DecidableEq

/-- A request and how many bytes had been written to the streams before it. -/
structure Asked where
  request : Request
  output : Nat
  errors : Nat

/-- The world around a program. -/
structure Host where
  /-- The text of the file at a path. -/
  files : String → Except HostError String
  /-- The input that has not been read yet. -/
  input : List Char
  /-- Why a line of input cannot be read, if it cannot. -/
  garbled : List Char → Option HostError
  /-- What was written to the output so far. -/
  output : String
  /-- Why the output that was written so far cannot take a text, if it cannot. -/
  blocked : String → String → Option HostError
  /-- What was written about errors so far. -/
  errors : String
  /-- The milliseconds since the epoch, when they had been asked for so often. -/
  clock : Nat → Except HostError Nat
  /-- How often the time was asked for so far. -/
  ticks : Nat
  /-- The grapheme clusters of a text. -/
  clusters : Segmentation
  /-- The line that an editor makes of a line that was typed, with its line end. -/
  edited : List Char → List Char
  /-- What was asked for so far, newest first. -/
  asked : List Asked

namespace Host

/-- A host without files and input, which takes all output and cuts texts anywhere. -/
def plain : Host where
  files _ := .error .notFound
  input := []
  garbled _ := none
  output := ""
  blocked _ _ := none
  errors := ""
  clock _ := .ok 0
  ticks := 0
  clusters := .characters
  edited line := line
  asked := []

/-- Writes to the output. A text that is refused is not written at all. -/
def write (text : String) (h : Host) : Except HostError Unit × Host :=
  match h.blocked h.output text with
  | none => (.ok (), { h with output := h.output ++ text })
  | some cause => (.error cause, h)

/-- Writes about an error. -/
def complain (text : String) (h : Host) : Host :=
  { h with errors := h.errors ++ text }

/-- Notes a request down. -/
def ask (request : Request) (h : Host) : Host :=
  { h with asked := ⟨request, h.output.utf8ByteSize, h.errors.utf8ByteSize⟩ :: h.asked }

/-- Splits off the first line, with its line end if it has one. -/
def splitLine (read : List Char) : List Char → List Char × List Char
  | [] => (read.reverse, [])
  | '\n' :: cs => (('\n' :: read).reverse, cs)
  | c :: cs => splitLine (c :: read) cs

/-- Takes a line of input with its line end; it is empty at the end of the input, and only there.
A line that cannot be read is gone all the same. -/
def readLine (h : Host) : Except HostError (List Char) × Host :=
  let (line, rest) := splitLine [] h.input
  let answer :=
    match h.garbled line with
    | none => .ok line
    | some cause => .error cause
  (answer, { if line.isEmpty then h.ask .line else h with input := rest })

/-- Reads the file at a path. -/
def readFile (path : String) (h : Host) : Except HostError String × Host :=
  (h.files path, h.ask (.file path))

/-- Reads the clock. -/
def readClock (h : Host) : Except HostError Nat × Host :=
  (h.clock h.ticks, { h.ask (.time h.ticks) with ticks := h.ticks + 1 })

end Host

end Lisp
