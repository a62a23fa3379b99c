import Lisp.Token.Basic

/-!
# Causes of malformed source text

Every way in which a text, or a special form made from it, can be badly formed, and the wording
of each.
-/

namespace Lisp

/-- Why a text or a special form is malformed. -/
inductive SyntaxError
  /-- The text ends where a form has to follow. -/
  | unexpectedEnd
  /-- A closing bracket where a form has to begin. -/
  | unexpectedCloser (found : Bracket)
  /-- A closing bracket of another kind than the one that is open. -/
  | mismatchedCloser (found expected : Bracket)
  /-- A map literal with a key that has no value. -/
  | oddMapLiteral (count : Nat)
  /-- An integer literal that does not fit in 64 bits. -/
  | integerOutOfRange (literal : String)
  /-- A string literal without its closing quote. -/
  | unterminatedText
  /-- A backslash before a character that has no escape. -/
  | unsupportedEscape (c : Char)
  /-- A string literal that would read as a keyword. -/
  | keywordMark (mark : Char)
  /-- `&` in a parameter list without a symbol behind it. -/
  | restNotSymbol
  /-- More than one parameter behind `&`. -/
  | severalRest
  /-- A `let*` name without its expression. -/
  | oddBindings
  /-- A second operand of `try*` that is no `catch*` clause. -/
  | notCatch (shown : String)
  /-- A `catch*` clause that does not consist of a name and a handler. -/
  | catchShape
  deriving DecidableEq

namespace SyntaxError

/-- The wording of a cause. -/
def message : SyntaxError → String
  | unexpectedEnd => "unexpected EOF"
  | unexpectedCloser b => "unexpected '" ++ b.closer.toString ++ "'"
  | mismatchedCloser b e =>
    "unexpected '" ++ b.closer.toString ++ "', expected '" ++ e.closer.toString ++ "'"
  | oddMapLiteral n => "map literal requires an even number of forms, got " ++ toString n
  | integerOutOfRange t => "integer literal out of range: " ++ t
  | unterminatedText => "unexpected EOF while reading string"
  | unsupportedEscape c => "unsupported escape sequence: \\" ++ c.toString
  | keywordMark c => "string literal may not begin with '" ++ c.toString ++ "'"
  | restNotSymbol => "fn*: '&' must be followed by a symbol"
  | severalRest => "fn*: only one parameter may follow '&'"
  | oddBindings => "let*: bindings require an even number of forms"
  | notCatch shown => "try*: expected (catch* name handler), got " ++ shown
  | catchShape => "catch*: expected exactly a name and a handler"

end SyntaxError

end Lisp
