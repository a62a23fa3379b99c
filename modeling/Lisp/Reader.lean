import Lisp.Text.Decimal
import Lisp.Text.Quoted
import Lisp.Token.Scan
import Lisp.Value.Dict

/-!
# Reading forms

Tokens become forms in one pass that keeps the constructs that are still open on a stack. Every
form takes one level of nesting while it is read, and `room` counts the levels that are left; a
form that finds none fails. A closing bracket needs no level, so an empty list may stand at the
deepest one.
-/

namespace Lisp.Reader

/-- A construct that has begun and lacks forms. -/
inductive Open
  /-- A bracket and the forms inside it so far, newest first. -/
  | bracket (b : Bracket) (items : List Value)
  /-- A sigil in front of its form. -/
  | sigil (s : Sigil)
  /-- The metadata sigil in front of the metadata. -/
  | tag
  /-- The metadata sigil and the metadata, in front of the form that carries it. -/
  | target (tag : Value)

/-- How reading goes on behind a token. -/
inductive Progress
  /-- The form is complete. -/
  | finished (v : Value)
  /-- More forms have to follow, with `room` levels left for each. -/
  | more (room : Nat) (opens : List Open)

/-- The value of a word: a constant, an integer, a keyword or a symbol. -/
def word (name : String) : Except Error Value :=
  let cs := name.toList
  if Decimal.isLiteral cs then
    match Decimal.word? (Decimal.value cs) with
    | some n => .ok (.int n)
    | none => .error (.malformed (.integerOutOfRange name))
  else if name = "true" then .ok (.bool true)
  else if name = "false" then .ok (.bool false)
  else if name = "nil" then .ok .nil
  else match cs with
    | ':' :: rest => .ok (.keyword (String.ofList rest))
    | _ => .ok (.symbol name)

/-- The value of a string literal, which must not read as a keyword. -/
def text (raw : String) : Except Error Value :=
  match Quoted.read raw with
  | .error cause => .error (.malformed cause)
  | .ok cs =>
    if cs.head? = some keywordMark then .error (.malformed (.keywordMark keywordMark))
    else .ok (.text (String.ofList cs))

/-- The value of a bracket that holds these forms. -/
def bracketed (items : List Value) : Bracket → Except Error Value
  | .round => .ok (.list items)
  | .square => .ok (.vector items)
  | .curly => do
    if items.length % 2 = 0 then return .dict (← Dict.ofValues items)
    else .error (.malformed (.oddMapLiteral items.length))

/-- Hands a complete form to the construct around it. The form began with `room` levels left. -/
def complete (v : Value) (room : Nat) : List Open → Progress
  | [] => .finished v
  | .bracket b items :: opens => .more room (.bracket b (v :: items) :: opens)
  | .sigil s :: opens => complete (.list [.symbol s.head, v]) (room + 1) opens
  | .tag :: opens => .more room (.target v :: opens)
  | .target tag :: opens =>
    complete (.list [.symbol Sigil.withMeta.head, v, tag]) (room + 1) opens

/-- Begins a form with `room + 1` levels left. -/
def start (room : Nat) (opens : List Open) : Token → Except Error Progress
  | .opening b => .ok (.more room (.bracket b [] :: opens))
  | .closing b => .error (.malformed (.unexpectedCloser b))
  | .sigil .withMeta => .ok (.more room (.tag :: opens))
  | .sigil s => .ok (.more room (.sigil s :: opens))
  | .text raw => return complete (← text raw) (room + 1) opens
  | .word name => return complete (← word name) (room + 1) opens

/-- Begins a form if a level is left for it. -/
def enter (limit room : Nat) (opens : List Open) (t : Token) : Except Error Progress :=
  match room with
  | 0 => .error (.depthExceeded limit)
  | room + 1 => start room opens t

/-- Reads one token. -/
def step (limit room : Nat) (opens : List Open) (t : Token) : Except Error Progress :=
  match opens, t with
  | .bracket b items :: outer, .closing c =>
    if c = b then return complete (← bracketed items.reverse b) (room + 1) outer
    else .error (.malformed (.mismatchedCloser c b))
  | _, _ => enter limit room opens t

/-- The error of a text that ends too early. Where a form has to begin, a level is asked for
first. -/
def atEnd (limit room : Nat) : List Open → Error
  | .bracket _ _ :: _ => .malformed .unexpectedEnd
  | _ => if room = 0 then .depthExceeded limit else .malformed .unexpectedEnd

/-- Reads the rest of the current form and returns it with the tokens behind it. -/
def form (limit room : Nat) (opens : List Open) :
    List Token → Except Error (Value × List Token)
  | [] => .error (atEnd limit room opens)
  | t :: ts => do
    match ← step limit room opens t with
    | .finished v => .ok (v, ts)
    | .more room opens => form limit room opens ts

/-- Reads forms up to the end of the text, each with `top` levels; the forms read so far come
newest first. -/
def forms (limit top : Nat) (done : List Value) (room : Nat) (opens : List Open) :
    List Token → Except Error (List Value)
  | [] => if opens.isEmpty then .ok done.reverse else .error (atEnd limit room opens)
  | t :: ts => do
    match ← step limit room opens t with
    | .finished v => forms limit top (v :: done) top [] ts
    | .more room opens => forms limit top done room opens ts

end Lisp.Reader

namespace Lisp

/-- The first form of a text. With `depth` levels in use, `limit - depth` are left for it. -/
def readFirst (limit depth : Nat) (s : String) : Except Error Value :=
  match tokenize s with
  | [] => .error .emptyInput
  | ts => Prod.fst <$> Reader.form limit (limit - depth) [] ts

/-- All forms of a text. With `depth` levels in use, `limit - depth` are left for each. -/
def readAll (limit depth : Nat) (s : String) : Except Error (List Value) :=
  let room := limit - depth
  Reader.forms limit room [] room [] (tokenize s)

end Lisp
