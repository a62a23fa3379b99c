import Lisp.SyntaxError

/-!
# String literals

The text between the quotes of a string literal. A newline, a backslash and a quote are written
with a backslash, every other character stands for itself. `decode_encode` says that reading
undoes writing.
-/

namespace Lisp.Quoted

/-- How a character is written inside a string literal. -/
def encodeChar : Char → List Char
  | '\n' => ['\\', 'n']
  | '\\' => ['\\', '\\']
  | '\x22' => ['\\', '\x22']
  | c => [c]

/-- How a text is written inside a string literal. -/
def encode (cs : List Char) : List Char :=
  cs.flatMap encodeChar

/-- The character that the escape of `c` stands for. -/
def escaped? : Char → Option Char
  | '\\' => some '\\'
  | 'n' => some '\n'
  | '\x22' => some '\x22'
  | _ => none

/-- Decodes the inside of a string literal behind the characters `out`, newest first. -/
def decodeOnto (out : List Char) : List Char → Except SyntaxError (List Char)
  | [] => .ok out.reverse
  | '\\' :: [] => .error .unterminatedText
  | '\\' :: c :: cs =>
    match escaped? c with
    | some d => decodeOnto (d :: out) cs
    | none => .error (.unsupportedEscape c)
  | c :: cs => decodeOnto (c :: out) cs

/-- The text that the inside of a string literal stands for. -/
def decode (cs : List Char) : Except SyntaxError (List Char) :=
  decodeOnto [] cs

theorem decodeOnto_encode (out cs : List Char) :
    decodeOnto out (encode cs) = .ok (out.reverse ++ cs) := by
  induction cs generalizing out with
  | nil => simp [encode, decodeOnto]
  | cons c cs ih =>
    have step : decodeOnto out (encodeChar c ++ encode cs) = decodeOnto (c :: out) (encode cs) := by
      unfold encodeChar
      split <;> simp_all [decodeOnto, escaped?]
    rw [encode, List.flatMap_cons, ← encode, step, ih]
    simp

@[simp] theorem decode_encode (cs : List Char) : decode (encode cs) = .ok cs := by
  simp [decode, decodeOnto_encode]

/-- The inside of a string literal as it is written: without its quotes, if both are there. -/
def inside? : List Char → Option (List Char)
  | '\x22' :: cs => if cs.getLast? = some '\x22' then some cs.dropLast else none
  | _ => none

/-- The text that a string literal with its quotes stands for. -/
def read (raw : String) : Except SyntaxError (List Char) :=
  match inside? raw.toList with
  | some cs => decode cs
  | none => .error .unterminatedText

end Lisp.Quoted
