import Lisp.Value.Dict

/-!
# Arguments of built-in functions

Taking the arguments of a built-in function apart. Every failure names the function: a wrong
number of arguments first, then the first argument of a wrong type.
-/

namespace Lisp.Builtin

variable (who : Builtin)

/-- The error of a call with a wrong number of arguments. -/
def wrongCount (expected : Arity) (args : List Value) : Error :=
  .arity who.name expected args.length

/-- The error of an argument of a wrong type. -/
def mismatch (expected : String) (v : Value) : Error :=
  .type (.mismatch who.name expected v.kind)

/-- No arguments. -/
def none : List Value → Except Error Unit
  | [] => .ok ()
  | args => .error (who.wrongCount (.exactly 0) args)

/-- One argument. -/
def one : List Value → Except Error Value
  | [a] => .ok a
  | args => .error (who.wrongCount (.exactly 1) args)

/-- Two arguments. -/
def two : List Value → Except Error (Value × Value)
  | [a, b] => .ok (a, b)
  | args => .error (who.wrongCount (.exactly 2) args)

/-- One argument and any number of others. -/
def oneOrMore : List Value → Except Error (Value × List Value)
  | a :: more => .ok (a, more)
  | args => .error (who.wrongCount (.atLeast 1) args)

/-- Two arguments and any number of others. -/
def twoOrMore : List Value → Except Error (Value × Value × List Value)
  | a :: b :: more => .ok (a, b, more)
  | args => .error (who.wrongCount (.atLeast 2) args)

/-- An integer argument. -/
def intOf : Value → Except Error Int64
  | .int n => .ok n
  | v => .error (who.mismatch "integer" v)

/-- A string argument; keywords are no strings. -/
def stringOf (v : Value) : Except Error String :=
  match v with
  | .text s => if Lisp.isKeyword s then .error (who.mismatch "string" v) else .ok s
  | _ => .error (who.mismatch "string" v)

/-- The elements of a list or vector argument. -/
def itemsOf : Value → Except Error (List Value)
  | .seq _ items _ => .ok items
  | v => .error (who.mismatch "list or vector" v)

/-- The elements of a list or vector argument, where `nil` stands for an empty one. -/
def itemsOrNil : Value → Except Error (List Value)
  | .nil => .ok []
  | v => who.itemsOf v

/-- The entries of a map argument. -/
def entriesOf : Value → Except Error Dict
  | .map entries _ => .ok entries
  | v => .error (who.mismatch "map" v)

/-- The cell of an atom argument. -/
def cellOf : Value → Except Error CellId
  | .atom c => .ok c
  | v => .error (who.mismatch "atom" v)

/-- The answer of a question about one argument. -/
def test (p : Value → Bool) (args : List Value) : Except Error Value :=
  return .bool (p (← who.one args))

end Lisp.Builtin
