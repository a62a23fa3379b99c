import Lisp.Eval.Call
import Lisp.Eval.SpecialForm

/-!
# One step of evaluation

What evaluating a form does before a form in tail position takes its place. Every other form
inside it is evaluated by a nested call, in the order in which the rules name them.
-/

namespace Lisp.Eval

/-- Where a step leads. -/
inductive Step
  /-- The form has this value. -/
  | done (v : Value)
  /-- The form has the value of this form in this scope. -/
  | next (form : Value) (scope : Scope)

/-- The name that a symbol gives to the form `who` that it stands in. -/
def symbolOf (who : String) (v : Value) : Except Error String :=
  match v.symbol? with
  | some name => .ok name
  | none => .error (.type (.mismatch who "a symbol" v.kind))

/-- Fails because a special form has a wrong number of operands. -/
def wrongCount {α : Type} (who : SpecialForm) (expected : Arity) (args : List Value) : Run α :=
  .raise (.arity who.name expected args.length)

section Forms

variable (nested : NestedCalls)

/-- Evaluates forms from left to right; the values so far come newest first. -/
def evalEach (scope : Scope) (done : List Value) : List Value → Run (List Value)
  | [] => return done.reverse
  | form :: forms => do evalEach scope ((← nested.eval form scope) :: done) forms

/-- Evaluates the values of a map from left to right and puts them at their keys, which are not
evaluated. -/
def evalEntries (scope : Scope) (done : Dict) : List (Value × Value) → Run Dict
  | [] => return done
  | (key, form) :: entries => do
    let v ← nested.eval form scope
    evalEntries scope (← done.insert key v) entries

/-- The value of a form that is no call: a symbol is looked up, vectors and maps evaluate what
they hold, everything else is its own value. -/
def evalPlain (form : Value) (scope : Scope) : Run Value :=
  match form with
  | .symbol name => do
    match ← Run.inspect (·.lookup scope name) with
    | some v => return v
    | none => .raise (.notFound name)
  | .seq .vector items _ => return .vector (← evalEach nested scope [] items)
  | .map entries _ => return .dict (← evalEntries nested scope [] entries)
  | v => return v

/-- `(def! name form)` binds a name in the innermost frame. -/
def define (args : List Value) (scope : Scope) : Run Step := do
  match args with
  | [name, form] =>
    let name ← symbolOf SpecialForm.define.name name
    let v ← nested.eval form scope
    .update (·.define scope name v)
    return .done v
  | _ => wrongCount .define (.exactly 2) args

/-- `(defmacro! name form)` binds a name to a closure turned into a macro. -/
def defineMacro (args : List Value) (scope : Scope) : Run Step := do
  match args with
  | [name, form] =>
    let name ← symbolOf SpecialForm.defineMacro.name name
    match ← nested.eval form scope with
    | .closure params body inner _ tag =>
      let v := Value.closure params body inner true tag
      .update (·.define scope name v)
      return .done v
    | v => .raise (.type (.mismatch SpecialForm.defineMacro.name "a function" v.kind))
  | _ => wrongCount .defineMacro (.exactly 2) args

/-- Binds the names of a `let*` one after the other, each form seeing the names before it. -/
def bindEach (scope : Scope) : List Value → Run Unit
  | name :: form :: bindings => do
    let name ← symbolOf SpecialForm.bindLocal.name name
    let v ← nested.eval form scope
    .update (·.define scope name v)
    bindEach scope bindings
  | _ => return ()

/-- `(let* (name form ...) body)` evaluates the body with names bound in a new frame. -/
def bindLocal (args : List Value) (scope : Scope) : Run Step := do
  match args with
  | [bindings, body] =>
    match bindings.items? with
    | none => .raise (.type (.bindings bindings.kind))
    | some items =>
      if items.length % 2 = 0 then
        let inner ← Run.modify (·.newChild scope)
        bindEach nested inner items
        return .next body inner
      else .raise (.malformed .oddBindings)
  | _ => wrongCount .bindLocal (.exactly 2) args

/-- `(do form ...)` evaluates forms in order and has the value of the last one. -/
def doInOrder (args : List Value) (scope : Scope) : Run Step :=
  match args with
  | [] => wrongCount .doInOrder (.atLeast 1) args
  | [form] => return .next form scope
  | form :: forms => do
    let _ ← nested.eval form scope
    doInOrder forms scope

/-- `(if test form form)` evaluates one of two forms; the second one may be missing. -/
def choose (args : List Value) (scope : Scope) : Run Step := do
  match args with
  | [test, yes] =>
    if (← nested.eval test scope).isTruthy then return .next yes scope else return .done .nil
  | [test, yes, no] =>
    if (← nested.eval test scope).isTruthy then return .next yes scope else return .next no scope
  | _ => wrongCount .choose (.between 2 3) args

/-- `(fn* (name ...) body)` is a closure over the scope. -/
def function (args : List Value) (scope : Scope) : Run Step := do
  match args with
  | [params, body] =>
    match params.items? with
    | none => .raise (.type (.parameters params.kind))
    | some forms =>
      let params ← Params.parse forms
      return .done (.closure params body scope false .nil)
  | _ => wrongCount .function (.exactly 2) args

/-- `(quote form)` is the form. -/
def quote (args : List Value) : Run Step := do
  match args with
  | [form] => return .done form
  | _ => wrongCount .quote (.exactly 1) args

/-- The expanded template of a `quasiquote`. -/
def template (who : SpecialForm) (args : List Value) : Run Value := do
  match args with
  | [form] => nested.template form
  | _ => wrongCount who (.exactly 1) args

/-- `(macroexpand form)` is the form with macro calls at its head expanded. -/
def macroExpand (n : Nat) (args : List Value) (scope : Scope) : Run Step := do
  match args with
  | [form] => return .done (← expand nested n form scope)
  | _ => wrongCount .macroExpand (.exactly 1) args

/-- The name and the handler of a `catch*` clause. -/
def catchClause (clause : Value) : Run (String × Value) := do
  match clause with
  | .seq .list (.symbol "catch*" :: args) _ =>
    match args with
    | [name, handler] => return (← symbolOf "catch*" name, handler)
    | _ => .raise (.malformed .catchShape)
  | _ => .raise (.malformed (.notCatch (← Run.shown .readable clause)))

/-- `(try* form (catch* name handler))` has the value of the form, or if that fails the value of
the handler with the error bound to the name. -/
def tryCatch (args : List Value) (scope : Scope) : Run Step := do
  match args with
  | [body] => return .next body scope
  | [body, clause] =>
    let (name, handler) ← catchClause clause
    Run.handle (nested.eval body scope) (fun v => return .done v) fun e => do
      let inner ← Run.modify (·.newChild scope)
      .update (·.define inner name e.payload)
      return .next handler inner
  | _ => wrongCount .tryCatch (.between 1 2) args

/-- `(eval form)` evaluates the value of the form once more, in the global scope. -/
def evalGlobal (args : List Value) (scope : Scope) : Run Step := do
  match args with
  | [form] => return .next (← nested.eval form scope) scope.outermost
  | _ => wrongCount .evalGlobal (.exactly 1) args

/-- Evaluates a special form. -/
def special (n : Nat) (form : SpecialForm) (args : List Value) (scope : Scope) : Run Step :=
  match form with
  | .define => define nested args scope
  | .defineMacro => defineMacro nested args scope
  | .bindLocal => bindLocal nested args scope
  | .doInOrder => doInOrder nested args scope
  | .choose => choose nested args scope
  | .function => function args scope
  | .quote => quote args
  | .quasiquote => return .next (← template nested .quasiquote args) scope
  | .quasiquoteExpand => return .done (← template nested .quasiquoteExpand args)
  | .macroExpand => macroExpand nested n args scope
  | .tryCatch => tryCatch nested args scope
  | .evalGlobal => evalGlobal nested args scope

/-- Calls a value. The body of a closure is left to be evaluated next. -/
def invoke (n : Nat) (f : Value) (args : List Value) : Run Step :=
  match f with
  | .builtin b => return .done (← b.call nested.read (apply nested n) args)
  | .closure params body scope _ _ => return .next body (← enterClosure params scope args)
  | v => notCallable v

/-- Evaluates a call that is no macro call: a special form, or else the head and the operands
from left to right, and then the function that the head is. -/
def stepCall (n : Nat) (head : Value) (args : List Value) (scope : Scope) : Run Step := do
  match head.symbol?.bind SpecialForm.ofName? with
  | some form => special nested n form args scope
  | none =>
    let f ← nested.eval head scope
    let args ← evalEach nested scope [] args
    invoke nested n f args

/-- Takes one step: expands macro calls and evaluates what is left up to its tail position. -/
def step (n : Nat) (form : Value) (scope : Scope) : Run Step := do
  match form.call? with
  | none => return .done (← evalPlain nested form scope)
  | some _ =>
    let form ← expand nested n form scope
    match form.call? with
    | none => return .done (← evalPlain nested form scope)
    | some (head, args) => stepCall nested n head args scope

end Forms

end Lisp.Eval
