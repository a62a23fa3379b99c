import Lisp.Eval.Basic

/-!
# The global scope

What every session starts with: the built-in functions under their names, and definitions written
in the language itself.
-/

namespace Lisp

/-- The definitions that are evaluated in every new session, in order. -/
def preludeSources : List String :=
  ["(def! not (fn* (a) (if a false true)))",
    "(def! load-file (fn* (f) (eval (read-string (str \"(do \" (slurp f) \"\\nnil)\")))))",
    "(defmacro! cond (fn* (& xs) (if (> (count xs) 0) (list 'if (first xs) " ++
      "(if (> (count xs) 1) (nth xs 1) (throw \"odd number of forms to cond\")) " ++
      "(cons 'cond (rest (rest xs)))))))",
    "(def! *host-language* \"rust\")",
    "(def! *ARGV* (list))"]

/-- The name that the arguments of a program are bound to. -/
def argumentsName : String := "*ARGV*"

/-- Binds the built-in functions in a scope. -/
def defineBuiltins (scope : Scope) : Run Unit :=
  .update fun s => s.bindAll scope.frame (Builtin.all.map fun b => (b.name, .builtin b))

/-- Evaluates the first form of a text. -/
def evalSource (n : Nat) (scope : Scope) (source : String) : Run Value := do
  eval n (← readForm source) scope

/-- Evaluates the first forms of texts, one after the other. -/
def evalSources (n : Nat) (scope : Scope) : List String → Run Unit
  | [] => return ()
  | source :: sources => do
    let _ ← evalSource n scope source
    evalSources n scope sources

end Lisp
