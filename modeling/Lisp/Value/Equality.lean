import Lisp.Error

/-!
# Equality of values

Lists and vectors are equal if their elements are, maps if they have equal values at equal keys,
in whatever order. Atoms and built-in functions are equal to themselves alone. Whether two
closures are equal cannot be decided, and asking is an error; metadata does not count.
-/

namespace Lisp.Value

mutual

/-- Whether two values are equal. -/
def equal : Value → Value → Except Error Bool
  | .nil, .nil => .ok true
  | .bool a, .bool b => .ok (a == b)
  | .int a, .int b => .ok (a == b)
  | .symbol a, .symbol b => .ok (a == b)
  | .text a, .text b => .ok (a == b)
  | .seq _ xs _, .seq _ ys _ =>
    if xs.length = ys.length then equalItems xs ys else .ok false
  | .map xs _, .map ys _ =>
    if xs.length = ys.length then equalEntries xs ys else .ok false
  | .atom a, .atom b => .ok (a == b)
  | .builtin a, .builtin b => .ok (a == b)
  | .closure .., .closure .. => .error (.type .functionEquality)
  | _, _ => .ok false
termination_by a b => sizeOf a + sizeOf b

/-- Whether the elements are equal pairwise, as far as both lists go. -/
def equalItems : List Value → List Value → Except Error Bool
  | x :: xs, y :: ys => do
    if ← equal x y then equalItems xs ys else .ok false
  | _, _ => .ok true
termination_by xs ys => sizeOf xs + sizeOf ys

/-- Whether every entry of the first map has an equal one in the second. -/
def equalEntries : List (Value × Value) → List (Value × Value) → Except Error Bool
  | [], _ => .ok true
  | (k, v) :: xs, ys => do
    if ← hasEntry ys k v then equalEntries xs ys else .ok false
termination_by xs ys => sizeOf xs + sizeOf ys

/-- Whether the value at the first key equal to `k` exists and equals `v`. -/
def hasEntry : List (Value × Value) → Value → Value → Except Error Bool
  | [], _, _ => .ok false
  | (key, w) :: ys, k, v => do
    if ← equal key k then equal v w else hasEntry ys k v
termination_by ys k v => sizeOf ys + sizeOf k + sizeOf v

end

end Lisp.Value
