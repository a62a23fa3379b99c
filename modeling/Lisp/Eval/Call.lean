import Lisp.Builtin.Call
import Lisp.Eval.NestedCalls
import Lisp.Params

/-!
# Calls

Calling functions and expanding macros. The nested calls are left open here and given as `nested`;
the fuel bounds how often calls lead to one another without evaluating anything.
-/

namespace Lisp

/-- The head and the operands of a form that is evaluated as a call: a list that is not empty. -/
def Value.call? : Value → Option (Value × List Value)
  | .seq .list (head :: args) _ => some (head, args)
  | _ => none

namespace Eval

/-- The scope of a closure's body: a new frame inside the closure's scope that binds its
parameters. -/
def enterClosure (params : Params) (scope : Scope) (args : List Value) : Run Scope := do
  params.arity.check "closure" args.length
  Run.modify fun s =>
    let (scope, s) := s.newChild scope
    (scope, s.bindAll scope.frame (params.bindings args))

/-- Fails because a value cannot be called. -/
def notCallable {α : Type} (v : Value) : Run α := do
  .raise (.type (.notCallable (← Run.shown .readable v) v.kind))

/-- Calls a value with arguments. -/
def apply (nested : NestedCalls) : Nat → Value → List Value → Run Value
  | 0, _, _ => .unfinished
  | n + 1, f, args =>
    match f with
    | .builtin b => b.call nested.read (apply nested n) args
    | .closure params body scope _ _ => do nested.eval body (← enterClosure params scope args)
    | v => notCallable v

/-- The parts of a macro and the operands it is called with. -/
structure MacroCall where
  params : Params
  body : Value
  scope : Scope
  args : List Value

/-- The macro call that a form is in a scope, if its head names a macro there. -/
def macroCall? (s : State) (scope : Scope) : Value → Option MacroCall
  | .seq .list (.symbol name :: args) _ =>
    match s.lookup scope name with
    | some (.closure params body inner true _) => some ⟨params, body, inner, args⟩
    | _ => none
  | _ => none

/-- Expands a form while it is a macro call. -/
def expand (nested : NestedCalls) : Nat → Value → Scope → Run Value
  | 0, _, _ => .unfinished
  | n + 1, form, scope => do
    match ← Run.inspect (macroCall? · scope form) with
    | none => return form
    | some c => do
      let expansion ← nested.eval c.body (← enterClosure c.params c.scope c.args)
      expand nested n expansion scope

end Lisp.Eval
