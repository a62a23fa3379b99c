import Lisp.Builtin.Arguments

/-!
# Maps

Building maps and looking keys up. Adding and removing entries keeps the metadata of the map.
-/

namespace Lisp.Builtin

/-- A map of keys and values that alternate. -/
def mapping (args : List Value) : Except Error Value := do
  return .dict (← Dict.ofValues args)

/-- Whether the argument is a map. -/
def mapped : List Value → Except Error Value :=
  isMap.test fun
    | .map .. => true
    | _ => false

/-- A map with keys and values added. -/
def associated (args : List Value) : Except Error Value := do
  let (m, pairs) ← assoc.oneOrMore args
  let entries ← assoc.entriesOf m
  if pairs.length % 2 = 0 then return .map (← Dict.insertAll entries pairs) m.metadata
  else .error (.type .oddPairs)

/-- A map without some keys. -/
def dissociated (args : List Value) : Except Error Value := do
  let (m, gone) ← dissoc.oneOrMore args
  let entries ← dissoc.entriesOf m
  return .map (← Dict.eraseAll entries gone) m.metadata

/-- The value at a key, or `nil`; `nil` has no keys. -/
def found (args : List Value) : Except Error Value := do
  let (m, key) ← get.two args
  match m with
  | .nil => return .nil
  | m => return (← Dict.find? key (← get.entriesOf m)).getD .nil

/-- Whether there is an entry at a key; `nil` has no keys. -/
def hasKey (args : List Value) : Except Error Value := do
  let (m, key) ← contains.two args
  match m with
  | .nil => return .bool false
  | m => return .bool (← Dict.contains key (← contains.entriesOf m))

/-- The keys in the order of the entries. -/
def keyList (args : List Value) : Except Error Value := do
  return .list ((← keys.entriesOf (← keys.one args)).map (·.1))

/-- The values in the order of the entries. -/
def valueList (args : List Value) : Except Error Value := do
  return .list ((← vals.entriesOf (← vals.one args)).map (·.2))

end Lisp.Builtin
