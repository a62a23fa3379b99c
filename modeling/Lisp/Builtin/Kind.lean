import Lisp.Builtin.Arguments

/-!
# Types, symbols and metadata

Questions about the type of a value, and the values that are made of texts or carry metadata.
-/

namespace Lisp.Builtin

/-- Whether the argument is of a type. -/
def hasKind (who : Builtin) (kind : Kind) : List Value → Except Error Value :=
  who.test fun v => v.kind == kind

/-- Whether the argument is this truth value. -/
def isBool (who : Builtin) (b : Bool) : List Value → Except Error Value :=
  who.test fun
    | .bool c => c == b
    | _ => false

/-- The symbol with a name. -/
def named (args : List Value) : Except Error Value := do
  return .symbol (← symbol.stringOf (← symbol.one args))

/-- The keyword with a name; a keyword is its own. -/
def keywordNamed (args : List Value) : Except Error Value := do
  match ← keyword.one args with
  | .text s => return .keyword s
  | v => .error (keyword.mismatch "string" v)

/-- The metadata of a value. -/
def tagOf (args : List Value) : Except Error Value := do
  return (← metadata.one args).metadata

/-- A value with other metadata. -/
def tagged (args : List Value) : Except Error Value := do
  let (v, tag) ← withMeta.two args
  match v.withMetadata? tag with
  | some v => return v
  | .none => .error (.type (.noMetadata v.kind))

end Lisp.Builtin
