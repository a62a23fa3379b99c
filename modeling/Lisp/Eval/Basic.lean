import Lisp.Eval.Step

/-!
# Evaluation

A form is evaluated step by step. A form in tail position takes the place of the form that it
ends, so a chain of tail calls is one loop; every other form is a nested call, which the limit on
nesting applies to. The fuel bounds both the nesting and the length of each loop.
-/

namespace Lisp

namespace Eval

/-- Takes steps up to a value. -/
def loop (nested : NestedCalls) (n : Nat) : Nat → Value → Scope → Run Value
  | 0, _, _ => .unfinished
  | m + 1, form, scope => do
    match ← step nested n form scope with
    | .done v => return v
    | .next form scope => loop nested n m form scope

end Eval

/-- Evaluates a form in a scope, as one more nested call. -/
def eval : Nat → Value → Scope → Run Value
  | 0, _, _ => .unfinished
  | n + 1, form, scope =>
    Run.guarded (Eval.loop ⟨eval n, readForm, expandTemplate⟩ n n form scope)

/-- The nested calls that stay below the limit of the state. -/
def NestedCalls.limited (n : Nat) : NestedCalls where
  eval := Lisp.eval n
  read := readForm
  template := expandTemplate

/-- Without fuel nothing is evaluated. -/
@[simp] theorem eval_zero (form : Value) (scope : Scope) : eval 0 form scope = .unfinished := rfl

/-- Evaluating is taking steps, one level further in. -/
theorem eval_succ (n : Nat) (form : Value) (scope : Scope) :
    eval (n + 1) form scope = Run.guarded (Eval.loop (.limited n) n n form scope) := rfl

/-- Calls a function from outside of a form. -/
def applyFunction (n : Nat) (f : Value) (args : List Value) : Run Value :=
  Eval.apply (.limited n) n f args

/-- Expands macro calls at the head of a form. -/
def expandMacros (n : Nat) (form : Value) (scope : Scope) : Run Value :=
  Eval.expand (.limited n) n form scope

end Lisp
