import Lisp.Proofs.Eval.Policy

/-!
# Evaluation without a loop

The ordinary recursive evaluator: each special form says what its value is, and where the value is
that of another form in some scope, that form is evaluated there and then. It knows neither steps
nor tail positions. Forms that are evaluated on the way count as nested calls, which a policy
decides about; under the policy `unlimited` there is no limit on nesting at all.

`direct_succ` relates it to the steps of the loop: evaluating directly is taking one step and then
evaluating directly whatever form that step leads to.
-/

namespace Lisp

open Run

/-- How many operands a special form takes. -/
def SpecialForm.arity : SpecialForm → Arity
  | define | defineMacro | bindLocal | function => .exactly 2
  | quote | quasiquote | quasiquoteExpand | macroExpand | evalGlobal => .exactly 1
  | doInOrder => .atLeast 1
  | choose => .between 2 3
  | tryCatch => .between 1 2

namespace Direct

open Eval

section Forms

variable (nested : NestedCalls) (value : Value → Scope → Run Value)

/-- The value of a special form, in which `value` evaluates what the form ends in and `nested`
what it needs before. -/
def special (n : Nat) (who : SpecialForm) (args : List Value) (scope : Scope) : Run Value := do
  match who, args with
  | .define, [name, form] =>
    let name ← symbolOf who.name name
    let v ← nested.eval form scope
    .update (·.define scope name v)
    return v
  | .defineMacro, [name, form] =>
    let name ← symbolOf who.name name
    match ← nested.eval form scope with
    | .closure params body inner _ tag =>
      let v := Value.closure params body inner true tag
      .update (·.define scope name v)
      return v
    | v => .raise (.type (.mismatch who.name "a function" v.kind))
  | .bindLocal, [.seq _ bindings _, body] =>
    if bindings.length % 2 = 0 then
      let inner ← Run.modify (·.newChild scope)
      bindEach nested inner bindings
      value body inner
    else .raise (.malformed .oddBindings)
  | .bindLocal, [bindings, _] => .raise (.type (.bindings bindings.kind))
  | .doInOrder, form :: forms =>
    (form :: forms).dropLast.forM fun form => do let _ ← nested.eval form scope
    value (forms.getLastD form) scope
  | .choose, test :: yes :: no =>
    if no.length ≤ 1 then
      if (← nested.eval test scope).isTruthy then value yes scope
      else match no with
        | [] => return .nil
        | no :: _ => value no scope
    else .raise (.arity who.name who.arity args.length)
  | .function, [.seq _ params _, body] =>
    return .closure (← Params.parse params) body scope false .nil
  | .function, [params, _] => .raise (.type (.parameters params.kind))
  | .quote, [form] => return form
  | .quasiquote, [form] => value (← nested.template form) scope
  | .quasiquoteExpand, [form] => nested.template form
  | .macroExpand, [form] => expand nested n form scope
  | .tryCatch, [body] => value body scope
  | .tryCatch, [body, clause] =>
    let (name, handler) ← catchClause clause
    handle (nested.eval body scope) pure fun e => do
      let inner ← Run.modify (·.newChild scope)
      .update (·.define inner name e.payload)
      value handler inner
  | .evalGlobal, [form] => value (← nested.eval form scope) scope.outermost
  | _, _ => .raise (.arity who.name who.arity args.length)

/-- The value of a call of a function. -/
def call (n : Nat) (f : Value) (args : List Value) : Run Value := do
  match f with
  | .builtin b => b.call nested.read (apply nested n) args
  | .closure params body scope _ _ => value body (← enterClosure params scope args)
  | f => notCallable f

/-- The value of a form. -/
def form (n : Nat) (form : Value) (scope : Scope) : Run Value := do
  let form ← if form.call?.isSome then expand nested n form scope else pure form
  match form.call? with
  | none => evalPlain nested form scope
  | some (head, args) =>
    match head.symbol?.bind SpecialForm.ofName? with
    | some who => special nested value n who args scope
    | none =>
      let f ← nested.eval head scope
      let args ← evalEach nested scope [] args
      call nested value n f args

end Forms

end Direct

/-- The value of a form in a scope, by recursion on what it ends in. -/
def Policy.direct (p : Policy) : Nat → Value → Scope → Run Value
  | 0, _, _ => .unfinished
  | n + 1, form, scope =>
    Direct.form (p.calls fun form scope => p.guard (p.direct n form scope)) (p.direct n) n form
      scope

namespace Eval

/-- What is left to do behind a step if what it leads to is evaluated by `value`. -/
def Step.proceed (value : Value → Scope → Run Value) : Step → Run Value
  | done v => pure v
  | next form scope => value form scope

end Eval

namespace Direct

open Eval

variable {nested : NestedCalls} {value : Value → Scope → Run Value}

/-- What comes behind a handled run comes behind its value and behind what handles its error. -/
theorem handle_bind {α β γ : Type} (x : Run α) (f : α → Run β) (g : Error → Run β)
    (k : β → Run γ) :
    handle x f g >>= k = handle x (fun a => f a >>= k) fun e => g e >>= k := by
  funext s
  rw [bind_apply]
  unfold handle
  cases x s <;> rfl

theorem doInOrder_eq (form : Value) (forms : List Value) (scope : Scope) :
    doInOrder nested (form :: forms) scope = do
      (form :: forms).dropLast.forM fun form => do let _ ← nested.eval form scope
      return .next (forms.getLastD form) scope := by
  induction forms generalizing form with
  | nil => rfl
  | cons form' forms ih =>
    rw [doInOrder, ih]
    · simp [List.getLast?_cons]
    · simp

/-- Evaluating a special form directly is taking its step and going on with what that leads to. -/
theorem special_eq (n : Nat) (who : SpecialForm) (args : List Value) (scope : Scope) :
    special nested value n who args scope =
      Eval.special nested n who args scope >>= Step.proceed value := by
  cases who with
  | define =>
    rcases args with _ | ⟨a, _ | ⟨b, _ | ⟨c, args⟩⟩⟩
    · rfl
    · rfl
    · simp [special, Eval.special, define, Step.proceed]
    · rfl
  | defineMacro =>
    rcases args with _ | ⟨a, _ | ⟨b, _ | ⟨c, args⟩⟩⟩
    · rfl
    · rfl
    · simp only [special, Eval.special, defineMacro, bind_assoc]
      refine bind_congr fun name => bind_congr fun v => ?_
      cases v with
      | closure => simp [Step.proceed]
      | _ => rfl
    · rfl
  | bindLocal =>
    rcases args with _ | ⟨a, _ | ⟨b, _ | ⟨c, args⟩⟩⟩
    · rfl
    · cases a <;> rfl
    · cases a with
      | seq kind bindings tag =>
        simp only [special, Eval.special, bindLocal, Value.items?]
        split
        · simp [Step.proceed]
        · rfl
      | _ => rfl
    · cases a <;> rfl
  | doInOrder =>
    cases args with
    | nil => rfl
    | cons form forms =>
      rw [Eval.special, doInOrder_eq]
      simp [special, Step.proceed]
  | choose =>
    rcases args with _ | ⟨test, _ | ⟨yes, _ | ⟨no, _ | ⟨d, args⟩⟩⟩⟩
    · rfl
    · rfl
    · simp only [special, Eval.special, choose, bind_assoc]
      refine bind_congr fun v => ?_
      split <;> rfl
    · simp only [special, Eval.special, choose, bind_assoc]
      refine bind_congr fun v => ?_
      split <;> rfl
    · simp [special, Eval.special, choose]
      rfl
  | function =>
    rcases args with _ | ⟨a, _ | ⟨b, _ | ⟨c, args⟩⟩⟩
    · rfl
    · cases a <;> rfl
    · cases a with
      | seq kind params tag =>
        simp [special, Eval.special, function, Value.items?, Step.proceed]
      | _ => rfl
    · cases a <;> rfl
  | quote =>
    rcases args with _ | ⟨a, _ | ⟨b, args⟩⟩ <;> rfl
  | quasiquote =>
    rcases args with _ | ⟨a, _ | ⟨b, args⟩⟩
    · rfl
    · simp [special, Eval.special, template, Step.proceed]
    · rfl
  | quasiquoteExpand =>
    rcases args with _ | ⟨a, _ | ⟨b, args⟩⟩
    · rfl
    · simp [special, Eval.special, template, Step.proceed]
    · rfl
  | macroExpand =>
    rcases args with _ | ⟨a, _ | ⟨b, args⟩⟩
    · rfl
    · simp [special, Eval.special, macroExpand, Step.proceed]
    · rfl
  | tryCatch =>
    rcases args with _ | ⟨a, _ | ⟨b, _ | ⟨c, args⟩⟩⟩
    · rfl
    · rfl
    · simp only [special, Eval.special, Eval.tryCatch, bind_assoc, handle_bind]
      refine bind_congr fun clause => ?_
      simp [Step.proceed]
    · rfl
  | evalGlobal =>
    rcases args with _ | ⟨a, _ | ⟨b, args⟩⟩
    · rfl
    · simp [special, Eval.special, evalGlobal, Step.proceed]
    · rfl

theorem call_eq (n : Nat) (f : Value) (args : List Value) :
    call nested value n f args = invoke nested n f args >>= Step.proceed value := by
  cases f with
  | builtin b => simp [call, invoke, Step.proceed]
  | closure params body scope isMacro tag => simp [call, invoke, Step.proceed]
  | _ => simp only [call, invoke, notCallable, bind_assoc]; rfl

/-- Evaluating a form directly is taking its step and going on with what that leads to. -/
theorem form_eq (n : Nat) (form : Value) (scope : Scope) :
    Direct.form nested value n form scope = step nested n form scope >>= Step.proceed value := by
  have hplain (form : Value) : evalPlain nested form scope =
      (do return .done (← evalPlain nested form scope)) >>= Step.proceed value := by
    simp [Step.proceed]
  unfold Direct.form step
  cases hform : form.call? with
  | none =>
    simp only [Option.isSome_none, Bool.false_eq_true, if_false, pure_bind, hform]
    exact hplain form
  | some c =>
    simp only [Option.isSome_some, if_true, bind_assoc]
    refine bind_congr fun form => ?_
    cases form.call? with
    | none => exact hplain form
    | some c =>
      simp only [stepCall]
      cases c.1.symbol?.bind SpecialForm.ofName? with
      | some who => exact special_eq n who c.2 scope
      | none => simp only [bind_assoc, call_eq]

end Direct

/-- Evaluating a form directly is taking a step and evaluating directly what that leads to. -/
theorem Policy.direct_succ (p : Policy) (n : Nat) (form : Value) (scope : Scope) :
    p.direct (n + 1) form scope =
      Eval.step (p.calls fun form scope => p.guard (p.direct n form scope)) n form scope >>=
        Eval.Step.proceed (p.direct n) :=
  Direct.form_eq n form scope

end Lisp
