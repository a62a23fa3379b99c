import Lisp.Proofs.Invariant.Eval

/-!
# Evaluation in the global frame

The special form `eval` goes on in the global frame of the scope that it stands in, whatever scope
that is. `evalIn g` takes the frame `g` for it instead, everywhere, and is otherwise evaluation. The
two are the same under every discipline by which `g` is the global frame of each scope that forms
are evaluated in: then `eval` means the same in a function, in a `let*`, in a handler, in a macro
and in a function that a built-in function calls.
-/

namespace Lisp

open Run

namespace Eval

section Forms

variable (g : FrameId) (nested : NestedCalls)

/-- As `evalGlobal`, with `g` for the global frame. -/
def evalGlobalIn (args : List Value) (scope : Scope) : Run Step := do
  match args with
  | [form] => return .next (← nested.eval form scope) (.global g)
  | _ => wrongCount .evalGlobal (.exactly 1) args

/-- As `stepCall`, with `g` for the global frame that `eval` goes on in. -/
def stepCallIn (n : Nat) (head : Value) (args : List Value) (scope : Scope) : Run Step :=
  match head.symbol?.bind SpecialForm.ofName? with
  | some .evalGlobal => evalGlobalIn g nested args scope
  | _ => stepCall nested n head args scope

/-- As `step`, with `g` for the global frame that `eval` goes on in. -/
def stepIn (n : Nat) (form : Value) (scope : Scope) : Run Step := do
  match form.call? with
  | none => return .done (← evalPlain nested form scope)
  | some _ =>
    let form ← expand nested n form scope
    match form.call? with
    | none => return .done (← evalPlain nested form scope)
    | some (head, args) => stepCallIn g nested n head args scope

/-- As `loop`, with `g` for the global frame that `eval` goes on in. -/
def loopIn (n : Nat) : Nat → Value → Scope → Run Value
  | 0, _, _ => .unfinished
  | m + 1, form, scope => do
    match ← stepIn g nested n form scope with
    | .done v => return v
    | .next form scope => loopIn n m form scope

end Forms

end Eval

/-- As `eval`, with `g` for the global frame that the special form `eval` goes on in. -/
def evalIn (g : FrameId) : Nat → Value → Scope → Run Value
  | 0, _, _ => .unfinished
  | n + 1, form, scope =>
    Run.guarded (Eval.loopIn g ⟨evalIn g n, readForm, expandTemplate⟩ n n form scope)

/-- The nested calls with `g` for the global frame that `eval` goes on in. -/
def NestedCalls.limitedIn (g : FrameId) (n : Nat) : NestedCalls where
  eval := evalIn g n
  read := readForm
  template := expandTemplate

/-- As `applyFunction`, with `g` for the global frame that `eval` goes on in. -/
def applyFunctionIn (g : FrameId) (n : Nat) (f : Value) (args : List Value) : Run Value :=
  Eval.apply (.limitedIn g n) n f args

/-- As `expandMacros`, with `g` for the global frame that `eval` goes on in. -/
def expandMacrosIn (g : FrameId) (n : Nat) (form : Value) (scope : Scope) : Run Value :=
  Eval.expand (.limitedIn g n) n form scope

namespace Eval

variable {g : FrameId} {nested : NestedCalls} {scope : Scope}

theorem evalGlobalIn_of_root (h : scope.root = g) (args : List Value) :
    evalGlobalIn g nested args scope = evalGlobal nested args scope := by
  cases h
  rfl

theorem stepCallIn_of_root (h : scope.root = g) (n : Nat) (head : Value) (args : List Value) :
    stepCallIn g nested n head args scope = stepCall nested n head args scope := by
  unfold stepCallIn
  split
  next hform =>
    rw [stepCall, hform, evalGlobalIn_of_root h]
    rfl
  next => rfl

/-- A step is the same where `g` is the global frame. -/
theorem stepIn_of_root (h : scope.root = g) (n : Nat) (form : Value) :
    stepIn g nested n form scope = step nested n form scope := by
  unfold stepIn step
  cases form.call? with
  | none => rfl
  | some _ =>
    refine bind_congr fun form => ?_
    cases form.call? with
    | none => rfl
    | some c => exact stepCallIn_of_root h n c.1 c.2

end Eval

section Agree

variable {W : Type} [Preorder W] {D : Discipline W} (hD : D.Lawful) {w : W} {g : FrameId}
  (hroot : ∀ {w c}, D.entered w c → c.root = g)
include hD hroot

/-- A loop of steps is the same where `g` is the global frame of all scopes. -/
theorem Eval.loopIn_agree {a b : NestedCalls} (h : NestedCalls.Agree D a b) (k l : Nat)
    {form : Value} {scope : Scope} (hform : D.Value w form) (hscope : D.entered w scope) :
    Agree D w D.Value (loop a k l form scope) (loopIn g b k l form scope) := by
  induction l generalizing w form scope with
  | zero => exact .unfinished
  | succ l ih =>
    have hstep : stepIn g b k form scope = step b k form scope :=
      stepIn_of_root (hroot hscope) k form
    rw [loop, loopIn, hstep]
    refine (step_agree hD h hscope k hform).bind fun w' next hw hnext => ?_
    cases next with
    | done v => exact .pure_value hD hnext
    | next form scope => exact ih hnext.1 hnext.2

/-- Evaluation is the same where `g` is the global frame of all scopes. -/
theorem evalIn_agree (k : Nat) {form : Value} {scope : Scope} (hform : D.Value w form)
    (hscope : D.entered w scope) :
    Agree D w D.Value (eval k form scope) (evalIn g k form scope) := by
  induction k generalizing w form scope with
  | zero => exact .unfinished
  | succ k ih => exact .guarded (Eval.loopIn_agree hD hroot (.of_eval hD ih) k k hform hscope)

theorem NestedCalls.limitedIn_agree (k : Nat) :
    NestedCalls.Agree D (.limited k) (.limitedIn g k) :=
  .of_eval hD (evalIn_agree hD hroot k)

theorem applyFunctionIn_agree (k : Nat) {f : Value} {args : List Value} (hf : D.Value w f)
    (hargs : D.Values w args) :
    Agree D w D.Value (applyFunction k f args) (applyFunctionIn g k f args) :=
  Eval.apply_agree hD (NestedCalls.limitedIn_agree hD hroot k) k hf hargs

theorem expandMacrosIn_agree (k : Nat) {form : Value} {scope : Scope} (hform : D.Value w form)
    (hscope : D.entered w scope) :
    Agree D w D.Value (expandMacros k form scope) (expandMacrosIn g k form scope) :=
  Eval.expand_agree hD (NestedCalls.limitedIn_agree hD hroot k) k hform hscope

end Agree

end Lisp
