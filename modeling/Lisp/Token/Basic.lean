/-!
# Tokens

The pieces that source text is cut into: brackets, sigils, string literals and words.
-/

namespace Lisp

/-- The three kinds of brackets: lists are round, vectors square and maps curly. -/
inductive Bracket
  | round
  | square
  | curly
  deriving DecidableEq

namespace Bracket

/-- The character that opens a bracket. -/
def opener : Bracket → Char
  | round => '('
  | square => '['
  | curly => '\x7b'

/-- The character that closes a bracket. -/
def closer : Bracket → Char
  | round => ')'
  | square => ']'
  | curly => '\x7d'

end Bracket

/-- The marks that wrap the form behind them into a call. -/
inductive Sigil
  | quote
  | quasiquote
  | unquote
  | spliceUnquote
  | deref
  /-- The metadata mark, the only one that takes two forms. -/
  | withMeta
  deriving DecidableEq

namespace Sigil

/-- How a sigil is written. -/
def written : Sigil → String
  | quote => "\x27"
  | quasiquote => "\x60"
  | unquote => "~"
  | spliceUnquote => "~@"
  | deref => "@"
  | withMeta => "^"

/-- The symbol at the head of the call that a sigil stands for. -/
def head : Sigil → String
  | quote => "quote"
  | quasiquote => "quasiquote"
  | unquote => "unquote"
  | spliceUnquote => "splice-unquote"
  | deref => "deref"
  | withMeta => "with-meta"

end Sigil

/-- One piece of source text. -/
inductive Token
  | opening (b : Bracket)
  | closing (b : Bracket)
  | sigil (s : Sigil)
  /-- A string literal as it is written, with its quotes and escapes; the closing quote may be
  missing. -/
  | text (raw : String)
  /-- A run of characters that are no delimiters. -/
  | word (name : String)
  deriving DecidableEq

end Lisp
