import Lisp.Value.Equality

/-!
# Maps as lists of entries

A map keeps its entries in the order in which their keys came. Keys can be any values, so looking
one up compares it with each key in turn, the stored key first.
-/

namespace Lisp

/-- The entries of a map, in the order in which their keys came. -/
abbrev Dict := List (Value × Value)

namespace Dict

/-- The value at the first key equal to `key`. -/
def find? (key : Value) : Dict → Except Error (Option Value)
  | [] => .ok none
  | (k, v) :: d => do
    if ← k.equal key then .ok (some v) else find? key d

/-- Whether some key equals `key`. -/
def contains (key : Value) (d : Dict) : Except Error Bool :=
  return (← find? key d).isSome

/-- The entries with `v` at `key`. An equal key is replaced in its place, a new one comes last. -/
def insert (key v : Value) : Dict → Except Error Dict
  | [] => .ok [(key, v)]
  | (k, w) :: d => do
    if ← k.equal key then .ok ((key, v) :: d) else .ok ((k, w) :: (← insert key v d))

/-- The entries without the first one whose key equals `key`. -/
def erase (key : Value) : Dict → Except Error Dict
  | [] => .ok []
  | (k, w) :: d => do
    if ← k.equal key then .ok d else .ok ((k, w) :: (← erase key d))

/-- Inserts keys and values that alternate, from left to right. A key without a value is left
out. -/
def insertAll (d : Dict) : List Value → Except Error Dict
  | key :: v :: rest => do insertAll (← d.insert key v) rest
  | _ => .ok d

/-- The entries made of keys and values that alternate. -/
def ofValues (values : List Value) : Except Error Dict :=
  if values.length % 2 = 0 then insertAll [] values
  else .error (.type (.oddMap values.length))

/-- Erases one key after the other. -/
def eraseAll (d : Dict) (keys : List Value) : Except Error Dict :=
  keys.foldlM (fun d key => d.erase key) d

end Dict

end Lisp
