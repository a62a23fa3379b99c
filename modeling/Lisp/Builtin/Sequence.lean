import Lisp.Builtin.Arguments
import Lisp.Host.Basic

/-!
# Lists and vectors

Building sequences and taking them apart. The results carry no metadata.
-/

namespace Lisp.Builtin

/-- Whether the argument is a sequence of this kind. -/
def ofKind (who : Builtin) (kind : SeqKind) : List Value → Except Error Value :=
  who.test fun
    | .seq k _ _ => k == kind
    | _ => false

/-- Whether the argument is a list or vector. -/
def sequential : List Value → Except Error Value :=
  isSequential.test fun
    | .seq .. => true
    | _ => false

/-- How many elements or entries an argument has. -/
def size (who : Builtin) : Value → Except Error Nat
  | .nil => .ok 0
  | .seq _ items _ => .ok items.length
  | .map entries _ => .ok entries.length
  | v => .error (who.mismatch "list, vector or map" v)

/-- Whether a sequence or map is empty. -/
def emptiness (args : List Value) : Except Error Value := do
  return .bool ((← isEmpty.size (← isEmpty.one args)) == 0)

/-- The number of elements or entries. -/
def length (args : List Value) : Except Error Value := do
  return .int (Int64.ofNat (← count.size (← count.one args)))

/-- An element in front of a sequence, as a list. -/
def consed (args : List Value) : Except Error Value := do
  let (v, s) ← cons.two args
  return .list (v :: (← cons.itemsOrNil s))

/-- The elements of all arguments behind `done`, newest first. -/
def joined (done : List Value) : List Value → Except Error (List Value)
  | [] => .ok done.reverse
  | s :: more => do joined ((← concat.itemsOrNil s).reverse ++ done) more

/-- All elements of any number of sequences, as a list. -/
def concatenated (args : List Value) : Except Error Value := do
  return .list (← joined [] args)

/-- The elements of a sequence as a vector. -/
def asVector (args : List Value) : Except Error Value := do
  return .vector (← vec.itemsOrNil (← vec.one args))

/-- Elements added where it is natural: one by one in front of a list, behind a vector. -/
def conjoined (args : List Value) : Except Error Value := do
  match ← conj.oneOrMore args with
  | (.seq .list items _, vs) => return .list (vs.reverse ++ items)
  | (.seq .vector items _, vs) => return .vector (items ++ vs)
  | (v, _) => .error (conj.mismatch "list or vector" v)

/-- The element at an index that starts from zero. -/
def element (args : List Value) : Except Error Value := do
  let (s, i) ← nth.two args
  let items ← nth.itemsOf s
  let i ← nth.intOf i
  let outside := Error.type (.indexOutOfRange i.toInt items.length)
  if i.toInt < 0 then .error outside
  else match items[i.toInt.toNat]? with
    | some v => .ok v
    | .none => .error outside

/-- The first element, or `nil` if there is none. -/
def head (args : List Value) : Except Error Value := do
  return (← first.itemsOrNil (← first.one args)).headD .nil

/-- All elements but the first, as a list. -/
def tail (args : List Value) : Except Error Value := do
  return .list (← rest.itemsOrNil (← rest.one args)).tail

/-- The elements of a sequence, or the grapheme clusters of a string, as a list; `nil` if there
are none. -/
def listed (clusters : Segmentation) (args : List Value) : Except Error Value := do
  match ← seq.one args with
  | .nil => return .nil
  | .seq _ items _ => return if items.isEmpty then .nil else .list items
  | .text s =>
    if Lisp.isKeyword s then .error (seq.mismatch "list, vector, string or nil" (.text s))
    else if s = "" then return .nil
    else return .list ((clusters.pieces s).map .text)
  | v => .error (seq.mismatch "list, vector, string or nil" v)

end Lisp.Builtin
