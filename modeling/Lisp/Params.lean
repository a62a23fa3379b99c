import Lisp.Error

/-!
# Parameter lists

A parameter list names the arguments of a closure. The symbol `&` before the last name makes that
name stand for the list of all surplus arguments.
-/

namespace Lisp.Params

/-- The symbol in front of the rest name. -/
def restMark : String := "&"

/-- Parses the rest of a parameter list behind the names `fixed`, newest first. -/
def parseOnto (fixed : List String) : List Value → Except Error Params
  | [] => .ok ⟨fixed.reverse, none⟩
  | v :: vs =>
    match v.symbol? with
    | none => .error (.type (.parameter v.kind))
    | some name =>
      if name = restMark then
        match vs with
        | [.symbol rest] => .ok ⟨fixed.reverse, some rest⟩
        | .symbol _ :: _ => .error (.malformed .severalRest)
        | _ => .error (.malformed .restNotSymbol)
      else parseOnto (name :: fixed) vs

/-- Parses the forms of a parameter list. -/
def parse (forms : List Value) : Except Error Params :=
  parseOnto [] forms

/-- The names with the arguments that they are bound to, in the order of binding: the fixed
names from left to right, then the rest name. -/
def bindings (p : Params) (args : List Value) : List (String × Value) :=
  p.fixed.zip args ++
    match p.rest with
    | some rest => [(rest, .list (args.drop p.fixed.length))]
    | none => []

end Lisp.Params
