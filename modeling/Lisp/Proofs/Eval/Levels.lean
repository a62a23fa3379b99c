import Lisp.Proofs.Eval.Direct
import Lisp.Proofs.Run.Levels

/-!
# Levels that forms take

A symbol and a string take the one level that every form takes that is evaluated in no tail
position. A call of a built-in function takes one level more than what its operands and the
function take together.
-/

namespace Lisp

open Run Eval

variable {k : Nat} {s : State} {scope : Scope} {name : String}

/-- A name that is bound takes one level. -/
theorem eval_symbol_takes {v : Value} (h : s.lookup scope name = some v) (n : Nat) :
    Takes 1 (eval (n + 2) (.symbol name) scope) s (.done v s) := by
  refine .guarded_of_eq ?_
  have hlookup : s.deeper.lookup scope name = some v := by rw [State.lookup_deeper, h]
  simp [loop, Eval.step, evalPlain, Value.call?, hlookup, Outcome.andThen, Outcome.mapState]

/-- What is its own value takes one level. -/
theorem eval_self_takes {v : Value} (hcall : v.call? = none)
    (hv : ∀ nested, evalPlain nested v scope = pure v) (n : Nat) :
    Takes 1 (eval (n + 2) v scope) s (.done v s) := by
  refine .guarded_of_eq ?_
  simp [loop, Eval.step, hcall, hv, Outcome.andThen, Outcome.mapState]

/-- A string takes one level. -/
theorem eval_text_takes (text : String) (n : Nat) :
    Takes 1 (eval (n + 2) (.text text) scope) s (.done (.text text) s) :=
  eval_self_takes rfl (fun _ => rfl) n

/-- A loop takes a step and goes on with what that leads to. -/
theorem loop_succ (nested : NestedCalls) (n m : Nat) (form : Value) (scope : Scope) :
    loop nested n (m + 1) form scope =
      Eval.step nested n form scope >>= Step.proceed (loop nested n m) := by
  rw [loop]
  refine bind_congr fun next => ?_
  cases next <;> rfl

theorem macroCall?_eq_none {args : List Value}
    (h : ∀ params body inner tag, s.lookup scope name ≠ some (.closure params body inner true tag)) :
    macroCall? s scope (.list (.symbol name :: args)) = none := by
  -- The hypothesis rules out the case of a macro.
  simp only [macroCall?, Value.list]

/-- A call whose head names no macro is taken as it is. -/
theorem step_of_not_macro {nested : NestedCalls} {args : List Value}
    (h : ∀ params body inner tag, s.lookup scope name ≠ some (.closure params body inner true tag))
    (n : Nat) :
    Eval.step nested (n + 1) (.list (.symbol name :: args)) scope s =
      stepCall nested (n + 1) (.symbol name) args scope s := by
  have hexpand : expand nested (n + 1) (.list (.symbol name :: args)) scope s =
      .done (.list (.symbol name :: args)) s := by
    rw [expand, bind_apply, inspect_apply, macroCall?_eq_none h]
    rfl
  change (expand nested (n + 1) (.list (.symbol name :: args)) scope >>= _) s = _
  rw [bind_apply, hexpand]
  rfl

/-- A call of a function is evaluated from left to right. -/
theorem stepCall_function {nested : NestedCalls} {args : List Value}
    (hname : SpecialForm.ofName? name = none) (n : Nat) :
    stepCall nested n (.symbol name) args scope =
      nested.eval (.symbol name) scope >>= fun f =>
        evalEach nested scope [] args >>= invoke nested n f := by
  have hform : (Value.symbol name).symbol?.bind SpecialForm.ofName? = none := hname
  rw [stepCall, hform]

/-- A call of a special form is evaluated as its rules say. -/
theorem stepCall_special {nested : NestedCalls} {form : SpecialForm} {args : List Value} (n : Nat) :
    stepCall nested n (.symbol form.name) args scope = special nested n form args scope := by
  have hform : (Value.symbol form.name).symbol?.bind SpecialForm.ofName? = some form :=
    form.ofName?_name
  rw [stepCall, hform]

section Builtin

variable {b : Builtin} {args : List Value} {o : Outcome Value} {n : Nat}
  (hname : SpecialForm.ofName? name = none) (hb : s.lookup scope name = some (.builtin b))

include hname hb in
/-- A call of a built-in function evaluates its name and its operands from left to right. -/
theorem loop_builtin :
    loop (.limited (n + 1)) (n + 1) (n + 1) (.list (.symbol name :: args)) scope s =
      (eval (n + 1) (.symbol name) scope >>= fun f =>
        evalEach (.limited (n + 1)) scope [] args >>= fun args =>
          Direct.call (.limited (n + 1)) (loop (.limited (n + 1)) (n + 1) n) (n + 1) f args) s := by
  have hmacro : ∀ params body inner tag,
      s.lookup scope name ≠ some (.closure params body inner true tag) := by
    rw [hb]
    exact nofun
  rw [loop_succ, bind_apply, step_of_not_macro hmacro n, stepCall_function hname, ← bind_apply,
    bind_assoc]
  simp only [bind_assoc, Direct.call_eq]
  rfl

include hname hb

/-- A call of a built-in function takes one level and those that its operands and the function
take. -/
theorem eval_builtin_takes (hk : 1 ≤ k)
    (h : Takes k (evalEach (.limited (n + 2)) scope [] args >>=
      b.call readForm (apply (.limited (n + 2)) (n + 2))) s.deeper (o.mapState State.deeper)) :
    Takes (k + 1) (eval (n + 3) (.list (.symbol name :: args)) scope) s o := by
  rw [← s.lookup_deeper] at hb
  exact .guarded (.congr ((eval_symbol_takes hb n).bind_more hk h) (loop_builtin hname hb))

/-- A call whose operands and function take no level takes two, one of them for the name. -/
theorem eval_builtin_takes_two
    (h : (evalEach (.limited (n + 2)) scope [] args >>=
      b.call readForm (apply (.limited (n + 2)) (n + 2))) s.deeper = o.mapState State.deeper) :
    Takes 2 (eval (n + 3) (.list (.symbol name :: args)) scope) s o := by
  rw [← s.lookup_deeper] at hb
  exact .guarded (.congr ((eval_symbol_takes hb n).bind fun _ => h) (loop_builtin hname hb))

end Builtin

section Special

variable {form : SpecialForm} {args : List Value} {v : Value} {t : State} {n : Nat}
  (hform : ∀ params body inner tag,
    s.lookup scope form.name ≠ some (.closure params body inner true tag))
include hform

/-- A special form that is hidden by no macro is evaluated as its rules say. -/
theorem loop_special (m : Nat) :
    loop (.limited (n + 1)) (n + 1) (m + 1) (.list (.symbol form.name :: args)) scope s =
      (special (.limited (n + 1)) (n + 1) form args scope >>=
        Step.proceed (loop (.limited (n + 1)) (n + 1) m)) s := by
  rw [loop_succ, bind_apply, step_of_not_macro hform n, stepCall_special]
  rfl

/-- A special form that ends in a value takes one level and those that its rules take. -/
theorem eval_special_takes
    (h : Takes k (special (.limited (n + 1)) (n + 1) form args scope) s.deeper
      (.done (.done v) t.deeper)) :
    Takes (k + 1) (eval (n + 2) (.list (.symbol form.name :: args)) scope) s (.done v t) := by
  simp only [← s.lookup_deeper] at hform
  exact .guarded (.congr (h.bind fun _ => rfl) (loop_special hform n))

/-- A special form whose rules take no level takes one. -/
theorem eval_special_takes_one
    (h : special (.limited (n + 1)) (n + 1) form args scope s.deeper = .done (.done v) t.deeper) :
    Takes 1 (eval (n + 2) (.list (.symbol form.name :: args)) scope) s (.done v t) := by
  simp only [← s.lookup_deeper] at hform
  refine .guarded_of_eq ((loop_special hform n).trans ?_)
  rw [bind_apply, h]
  rfl

/-- The only operand of `do` takes the place of the `do` form. -/
theorem eval_do_takes
    (hdo : ∀ params body inner tag,
      s.lookup scope SpecialForm.doInOrder.name ≠ some (.closure params body inner true tag))
    (h : Takes k (special (.limited (n + 2)) (n + 2) form args scope) s.deeper
      (.done (.done v) t.deeper)) :
    Takes (k + 1) (eval (n + 3) (.list [.symbol "do", .list (.symbol form.name :: args)]) scope) s
      (.done v t) := by
  simp only [← s.lookup_deeper] at hform hdo
  have hstep : loop (.limited (n + 2)) (n + 2) (n + 2)
        (.list [.symbol "do", .list (.symbol form.name :: args)]) scope s.deeper =
      loop (.limited (n + 2)) (n + 2) (n + 1) (.list (.symbol form.name :: args)) scope s.deeper :=
    loop_special hdo (n + 1)
  exact .guarded (.congr (h.bind fun _ => rfl) (hstep.trans (loop_special hform n)))

end Special

end Lisp
