import Lisp.SyntaxError
import Lisp.Value.Basic

/-!
# Errors

Why reading or evaluating fails, by cause, and the wording of each cause. `Error.payload` is what
a handler gets to see.
-/

namespace Lisp

/-- How many arguments are accepted. -/
inductive Arity
  | exactly (n : Nat)
  | atLeast (n : Nat)
  | between (min max : Nat)
  deriving DecidableEq

namespace Arity

/-- Whether `n` arguments are accepted. -/
def admits : Arity → Nat → Bool
  | exactly k, n => n == k
  | atLeast k, n => k ≤ n
  | between min max, n => min ≤ n && n ≤ max

/-- The wording of an arity. -/
def message : Arity → String
  | exactly n => toString n
  | atLeast n => "at least " ++ toString n
  | between min max => toString min ++ " to " ++ toString max

end Arity

/-- The arity of a closure: every fixed name takes one argument, the rest name any number. -/
def Params.arity (p : Params) : Arity :=
  match p.rest with
  | some _ => .atLeast p.fixed.length
  | none => .exactly p.fixed.length

/-- How a value can be of the wrong shape. -/
inductive TypeError
  /-- `who` takes something else than a value of type `found`. -/
  | mismatch (who expected : String) (found : Kind)
  /-- A parameter that is no symbol. -/
  | parameter (found : Kind)
  /-- `let*` bindings that are no sequence. -/
  | bindings (found : Kind)
  /-- A parameter list that is no sequence. -/
  | parameters (found : Kind)
  /-- A value that carries no metadata. -/
  | noMetadata (found : Kind)
  /-- A map out of an odd number of values. -/
  | oddMap (count : Nat)
  /-- Keys and values to add that do not pair up. -/
  | oddPairs
  /-- Two functions to compare. -/
  | functionEquality
  /-- A result that does not fit in 64 bits. -/
  | overflow (who : String)
  | divisionByZero
  | indexOutOfRange (index : Int) (length : Nat)
  /-- A time that does not fit in 64 bits. -/
  | timeOutOfRange
  /-- A value at the head of a call that is no function. -/
  | notCallable (shown : String) (found : Kind)
  deriving DecidableEq

/-- The wording of a type error. -/
def TypeError.message : TypeError → String
  | mismatch who expected found => who ++ ": expected " ++ expected ++ ", got " ++ found.name
  | parameter found => "fn*: parameter must be a symbol, got " ++ found.name
  | bindings found => "let*: bindings must be a list or vector, got " ++ found.name
  | parameters found => "fn*: parameters must be a list or vector, got " ++ found.name
  | noMetadata found => "with-meta: cannot attach metadata to " ++ found.name
  | oddMap count => "map requires an even number of forms, got " ++ toString count
  | oddPairs => "assoc: expected an even number of key/value forms"
  | functionEquality => "=: function equality is not supported"
  | overflow who => who ++ ": integer overflow"
  | divisionByZero => "/: division by zero"
  | indexOutOfRange index length =>
    "nth: index " ++ toString index ++ " out of range for length " ++ toString length
  | timeOutOfRange => "time-ms: timestamp out of range"
  | notCallable shown found => shown ++ " is not callable (" ++ found.name ++ ")"

/-- Why the host refuses what a program asks of it. -/
inductive HostError
  | notFound
  | isDirectory
  | notDirectory
  | nameTooLong
  | nulInPath
  | notText
  /-- Any other refusal, in the words of the system. -/
  | refused (words : String)
  deriving DecidableEq

/-- The wording of a refusal. -/
def HostError.message : HostError → String
  | notFound => "No such file or directory (os error 2)"
  | isDirectory => "Is a directory (os error 21)"
  | notDirectory => "Not a directory (os error 20)"
  | nameTooLong => "File name too long (os error 36)"
  | nulInPath => "file name contained an unexpected NUL byte"
  | notText => "stream did not contain valid UTF-8"
  | refused words => words

/-- What a program reads from and writes to outside of its own memory. -/
inductive Source
  | file (path : String)
  /-- The input or the output, as an operation uses it. -/
  | stream (who : String)
  | clock
  deriving DecidableEq

/-- The wording of what could not be read or written. -/
def Source.message : Source → String
  | file path => "slurp: failed to read '" ++ path ++ "'"
  | stream who => who ++ ": I/O error"
  | clock => "time-ms: clock error"

/-- Why reading or evaluating failed. -/
inductive Error
  /-- The text or a special form is malformed. -/
  | malformed (cause : SyntaxError)
  /-- There is nothing to read. -/
  | emptyInput
  /-- A symbol without a binding. -/
  | notFound (name : String)
  /-- A wrong number of arguments. -/
  | arity (who : String) (expected : Arity) (found : Nat)
  /-- A value of the wrong shape. -/
  | type (cause : TypeError)
  /-- Something outside that cannot be read or written. -/
  | unreadable (source : Source) (cause : HostError)
  /-- Calls nested deeper than the limit. -/
  | depthExceeded (limit : Nat)
  /-- A value that the program threw. -/
  | thrown (v : Value)

namespace Error

/-- The wording of an error; `display` gives the text of a thrown value. -/
def message (display : Value → String) : Error → String
  | malformed cause => "syntax error: " ++ cause.message
  | emptyInput => "no input"
  | notFound name => "'" ++ name ++ "' not found"
  | arity who expected found =>
    who ++ ": wrong number of arguments (expected " ++ expected.message ++ ", got " ++
      toString found ++ ")"
  | type cause => cause.message
  | unreadable source cause => source.message ++ ": " ++ cause.message
  | depthExceeded limit => "maximum recursion depth (" ++ toString limit ++ ") exceeded"
  | thrown v => display v

/-- The value that a handler gets: what was thrown, or else the wording of the error. -/
def payload : Error → Value
  | thrown v => v
  | e => .text (e.message fun _ => "")

end Error

/-- Fails unless the number of arguments is accepted. -/
def Arity.check (who : String) (expected : Arity) (found : Nat) : Except Error Unit :=
  if expected.admits found then .ok () else .error (.arity who expected found)

end Lisp
