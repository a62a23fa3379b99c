import Lisp.Token.Basic
import Lisp.Text.Blank

/-!
# Cutting text into tokens

One pass over the characters. Between two characters the scanner remembers only what the
characters since the last token amount to, so scanning is structural recursion on the text.
Blanks, commas and comments separate tokens and leave no trace.
-/

namespace Lisp

/-- Whether `c` separates tokens. -/
def isSeparator (c : Char) : Bool :=
  isBlank c || c == ','

/-- Whether `c` ends a word. The marks `~`, `^` and `@` begin a token but end none. -/
def isDelimiter (c : Char) : Bool :=
  isSeparator c || c == '(' || c == ')' || c == '[' || c == ']' || c == '\x7b' || c == '\x7d' ||
    c == '\x27' || c == '\x60' || c == '\x22' || c == ';'

/-- What the characters read since the last token amount to; those of an unfinished token are
kept newest first. -/
inductive Scan
  | gap
  | comment
  | text (escaped : Bool) (read : List Char)
  | word (read : List Char)
  | tilde
  deriving DecidableEq

namespace Scan

/-- The token that the single character `c` makes on its own. -/
def single? (c : Char) : Option Token :=
  if c = '(' then some (.opening .round)
  else if c = ')' then some (.closing .round)
  else if c = '[' then some (.opening .square)
  else if c = ']' then some (.closing .square)
  else if c = '\x7b' then some (.opening .curly)
  else if c = '\x7d' then some (.closing .curly)
  else if c = '\x27' then some (.sigil .quote)
  else if c = '\x60' then some (.sigil .quasiquote)
  else if c = '^' then some (.sigil .withMeta)
  else if c = '@' then some (.sigil .deref)
  else none

/-- Reads `c` where no token is under way. The tokens found so far are kept newest first. -/
def start (found : List Token) (c : Char) : List Token × Scan :=
  if isSeparator c then (found, gap)
  else if c = ';' then (found, comment)
  else if c = '\x22' then (found, text false [c])
  else if c = '~' then (found, tilde)
  else match single? c with
    | some t => (t :: found, gap)
    | none => (found, word [c])

/-- Reads one character. -/
def step (found : List Token) (c : Char) : Scan → List Token × Scan
  | gap => start found c
  | comment => (found, if c = '\n' then gap else comment)
  | text true read => (found, text false (c :: read))
  | text false read =>
    if c = '\\' then (found, text true (c :: read))
    else if c = '\x22' then (.text (String.ofList (c :: read).reverse) :: found, gap)
    else (found, text false (c :: read))
  | word read =>
    if isDelimiter c then start (.word (String.ofList read.reverse) :: found) c
    else (found, word (c :: read))
  | tilde =>
    if c = '@' then (.sigil .spliceUnquote :: found, gap)
    else start (.sigil .unquote :: found) c

/-- The tokens found once the text has ended. -/
def finish (found : List Token) : Scan → List Token
  | gap => found
  | comment => found
  | text _ read => .text (String.ofList read.reverse) :: found
  | word read => .word (String.ofList read.reverse) :: found
  | tilde => .sigil .unquote :: found

/-- Reads the rest of the text; the tokens found are kept newest first throughout. -/
def run (found : List Token) (s : Scan) : List Char → List Token
  | [] => s.finish found
  | c :: cs =>
    match s.step found c with
    | (found, s) => run found s cs

end Scan

/-- The tokens of a text, in order. -/
def tokenize (s : String) : List Token :=
  (Scan.run [] .gap s.toList).reverse

end Lisp
