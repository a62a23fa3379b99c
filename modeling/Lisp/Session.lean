import Lisp.Prelude

/-!
# Sessions

A session is a global scope with the built-in functions and the prelude, in which texts and files
are evaluated one after the other.
-/

namespace Lisp

namespace Session

/-- Fuel that outlasts any run that ends within a lifetime. -/
def lifetime : Nat := 1 <<< 60

/-- A new global scope with the built-in functions. -/
def bare : Run Scope := do
  let scope ← Run.modify (·.newGlobal)
  defineBuiltins scope
  return scope

/-- A new global scope with the built-in functions and the prelude. -/
def start (n : Nat) : Run Scope := do
  let scope ← bare
  evalSources n scope preludeSources
  return scope

/-- Binds the arguments of a program, as a list of strings. -/
def setArguments (scope : Scope) (args : List String) : Run Unit :=
  .update (·.define scope argumentsName (.list (args.map .text)))

/-- Evaluates forms in order; the value is that of the last one, or `last` if there is none. -/
def evalForms (n : Nat) (scope : Scope) (last : Value) : List Value → Run Value
  | [] => return last
  | form :: forms => do evalForms n scope (← eval n form scope) forms

/-- Reads all forms of a text and then evaluates them in order. A text without forms is an
error. -/
def evalText (n : Nat) (scope : Scope) (text : String) : Run Value := do
  match ← readForms text with
  | [] => .raise .emptyInput
  | forms => evalForms n scope .nil forms

/-- Evaluates a text and renders the value readably. -/
def evalPrint (n : Nat) (scope : Scope) (text : String) : Run String := do
  Run.shown .readable (← evalText n scope text)

/-- Evaluates a file by calling `load-file`. -/
def loadFile (n : Nat) (scope : Scope) (path : String) : Run Value :=
  eval n (.list [.symbol "load-file", .text path]) scope

end Session

end Lisp
