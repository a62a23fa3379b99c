import Lisp.Builtin.Arguments
import Lisp.Text.Decimal

/-!
# Arithmetic

The exact result of an operation on two integers, or an error if it does not fit in 64 bits.
-/

namespace Lisp.Builtin

/-- Applies an operation on integers to two arguments. -/
def arithmetic (who : Builtin) (op : Int → Int → Int) (args : List Value) :
    Except Error Value := do
  let (a, b) ← who.two args
  let a ← who.intOf a
  let b ← who.intOf b
  match Decimal.word? (op a.toInt b.toInt) with
  | some n => .ok (.int n)
  | .none => .error (.type (.overflow who.name))

/-- Compares two integer arguments. -/
def comparison (who : Builtin) (op : Int → Int → Bool) (args : List Value) :
    Except Error Value := do
  let (a, b) ← who.two args
  let a ← who.intOf a
  let b ← who.intOf b
  return .bool (op a.toInt b.toInt)

/-- Division rounds toward zero. A zero divisor is found before anything else. -/
def division (args : List Value) : Except Error Value := do
  let (_, b) ← div.two args
  match b with
  | .int 0 => .error (.type .divisionByZero)
  | _ => div.arithmetic Int.tdiv args

/-- Equality of any two values. -/
def equality (args : List Value) : Except Error Value := do
  let (a, b) ← eq.two args
  return .bool (← a.equal b)

end Lisp.Builtin
