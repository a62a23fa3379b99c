/-!
# Built-in functions

The functions that every session starts with, and the names that they are bound to.
-/

namespace Lisp

/-- A built-in function. Two of them are equal if they are the same one. -/
inductive Builtin
  | add
  | sub
  | mul
  | div
  | lt
  | le
  | gt
  | ge
  | eq
  | prStr
  | str
  | prn
  | println
  | readString
  | slurp
  | readLine
  | timeMs
  | list
  | isList
  | vector
  | isVector
  | isSequential
  | isEmpty
  | count
  | cons
  | concat
  | vec
  | conj
  | nth
  | first
  | rest
  | seq
  | hashMap
  | isMap
  | assoc
  | dissoc
  | get
  | contains
  | keys
  | vals
  | atom
  | isAtom
  | deref
  | reset
  | swap
  | throw
  | apply
  | map
  | isFn
  | isMacro
  | isNil
  | isTrue
  | isFalse
  | isSymbol
  | symbol
  | isKeyword
  | keyword
  | isString
  | isNumber
  | metadata
  | withMeta
  deriving DecidableEq

namespace Builtin

/-- The name that a built-in function is bound to. -/
def name : Builtin → String
  | add => "+"
  | sub => "-"
  | mul => "*"
  | div => "/"
  | lt => "<"
  | le => "<="
  | gt => ">"
  | ge => ">="
  | eq => "="
  | prStr => "pr-str"
  | str => "str"
  | prn => "prn"
  | println => "println"
  | readString => "read-string"
  | slurp => "slurp"
  | readLine => "readline"
  | timeMs => "time-ms"
  | list => "list"
  | isList => "list?"
  | vector => "vector"
  | isVector => "vector?"
  | isSequential => "sequential?"
  | isEmpty => "empty?"
  | count => "count"
  | cons => "cons"
  | concat => "concat"
  | vec => "vec"
  | conj => "conj"
  | nth => "nth"
  | first => "first"
  | rest => "rest"
  | seq => "seq"
  | hashMap => "hash-map"
  | isMap => "map?"
  | assoc => "assoc"
  | dissoc => "dissoc"
  | get => "get"
  | contains => "contains?"
  | keys => "keys"
  | vals => "vals"
  | atom => "atom"
  | isAtom => "atom?"
  | deref => "deref"
  | reset => "reset!"
  | swap => "swap!"
  | throw => "throw"
  | apply => "apply"
  | map => "map"
  | isFn => "fn?"
  | isMacro => "macro?"
  | isNil => "nil?"
  | isTrue => "true?"
  | isFalse => "false?"
  | isSymbol => "symbol?"
  | symbol => "symbol"
  | isKeyword => "keyword?"
  | keyword => "keyword"
  | isString => "string?"
  | isNumber => "number?"
  | metadata => "meta"
  | withMeta => "with-meta"

/-- All built-in functions, arithmetic first. -/
def all : List Builtin :=
  [add, sub, mul, div, lt, le, gt, ge, eq,
    prStr, str, prn, println, readString, slurp, readLine, timeMs,
    list, isList, vector, isVector, isSequential, isEmpty, count, cons, concat, vec, conj, nth,
    first, rest, seq,
    hashMap, isMap, assoc, dissoc, get, contains, keys, vals,
    atom, isAtom, deref, reset, swap,
    throw, apply, map, isFn, isMacro,
    isNil, isTrue, isFalse, isSymbol, symbol, isKeyword, keyword, isString, isNumber, metadata,
    withMeta]

/-- The list of built-in functions is complete. -/
theorem mem_all (b : Builtin) : b ∈ all := by
  cases b <;> decide

/-- No two built-in functions share a name. -/
theorem nodup_map_name_all : (all.map name).Nodup := by
  decide +kernel

end Builtin

end Lisp
