import Lisp.Eval.Basic
import Lisp.Proofs.Builtin.Refinement

/-!
# Refinement of a step of evaluation

Calling functions, expanding macros and taking a step refine along with the nested calls that they
are given, and with the fuel: more of it never changes how a run ends.
-/

namespace Lisp

open Run

variable {R : Counts → Counts → Prop}

/-- The nested calls of `a` refine those of `b`. -/
structure NestedCalls.Refines (R : Counts → Counts → Prop) (a b : NestedCalls) : Prop where
  eval : ∀ form scope, Run.Refines R (a.eval form scope) (b.eval form scope)
  read : ∀ text, Run.Refines R (a.read text) (b.read text)
  template : ∀ v, Run.Refines R (a.template v) (b.template v)

namespace Eval

variable {a b : NestedCalls}

theorem enterClosure_refines (params : Params) (scope : Scope) (args : List Value) :
    Refines R (enterClosure params scope args) (enterClosure params scope args) := by
  refine (Refines.ofExcept _).bind fun _ => .modify fun s c => ?_
  simp only [State.bindAll_withCounts, State.newChild_withCounts]

theorem notCallable_refines {α : Type} (v : Value) :
    Refines R (notCallable v : Run α) (notCallable v) :=
  (Refines.shown .readable _).bind fun _ => .raise _

theorem apply_refines (h : a.Refines R b) {n m : Nat} (hnm : n ≤ m) (f : Value)
    (args : List Value) : Refines R (apply a n f args) (apply b m f args) := by
  induction n generalizing m f args with
  | zero => exact .unfinished _
  | succ n ih =>
    obtain ⟨m, rfl⟩ := Nat.exists_eq_add_of_lt hnm
    have ih' : ∀ f args, Refines R (apply a n f args) (apply b (n + m) f args) :=
      ih (Nat.le_add_right n m)
    cases f with
    | builtin f => exact Builtin.call_refines h.read ih' f args
    | closure params body scope isMacro tag =>
      exact (enterClosure_refines _ _ _).bind fun inner => h.eval _ _
    | _ => exact notCallable_refines _

theorem macroCall?_withCounts (s : State) (c : Counts) (scope : Scope) (form : Value) :
    macroCall? (s.withCounts c) scope form = macroCall? s scope form := by
  unfold macroCall?
  simp only [State.lookup_withCounts]

theorem expand_refines (h : a.Refines R b) {n m : Nat} (hnm : n ≤ m) (form : Value)
    (scope : Scope) : Refines R (expand a n form scope) (expand b m form scope) := by
  induction n generalizing m form with
  | zero => exact .unfinished _
  | succ n ih =>
    obtain ⟨m, rfl⟩ := Nat.exists_eq_add_of_lt hnm
    refine (Refines.inspect fun s c => macroCall?_withCounts s c scope form).bind fun call => ?_
    cases call with
    | none => exact .pure _
    | some c =>
      refine (enterClosure_refines _ _ _).bind fun inner => (h.eval _ _).bind fun expansion => ?_
      exact ih (Nat.le_add_right n m) expansion

section Forms

variable (h : a.Refines R b)
include h

theorem evalEach_refines (scope : Scope) (done forms : List Value) :
    Refines R (evalEach a scope done forms) (evalEach b scope done forms) := by
  induction forms generalizing done with
  | nil => exact .pure _
  | cons form forms ih => exact (h.eval _ _).bind fun v => ih (v :: done)

theorem evalEntries_refines (scope : Scope) (done entries : Dict) :
    Refines R (evalEntries a scope done entries) (evalEntries b scope done entries) := by
  induction entries generalizing done with
  | nil => exact .pure _
  | cons e entries ih =>
    exact (h.eval _ _).bind fun v => (Refines.ofExcept _).bind fun done => ih done

theorem evalPlain_refines (form : Value) (scope : Scope) :
    Refines R (evalPlain a form scope) (evalPlain b form scope) := by
  cases form with
  | symbol name =>
    refine (Refines.inspect fun s c => ?_).bind fun v => ?_
    · exact State.lookup_withCounts s c scope name
    · cases v with
      | none => exact .raise _
      | some v => exact .pure _
  | seq kind items tag =>
    cases kind with
    | list => exact .pure _
    | vector => exact (evalEach_refines h _ _ _).bind fun _ => .pure _
  | map entries tag => exact (evalEntries_refines h _ _ _).bind fun _ => .pure _
  | _ => exact .pure _

theorem bindEach_refines (scope : Scope) (bindings : List Value) :
    Refines R (bindEach a scope bindings) (bindEach b scope bindings) := by
  fun_induction bindEach a scope bindings with
  | case1 name form bindings ih =>
    refine (Refines.ofExcept _).bind fun name => (h.eval _ _).bind fun v => ?_
    exact (Refines.update fun _ _ => rfl).bind fun _ => ih
  | case2 bindings hbindings =>
    rw [bindEach]
    · exact .pure _
    · exact hbindings

theorem define_refines (args : List Value) (scope : Scope) :
    Refines R (define a args scope) (define b args scope) := by
  unfold define
  split
  · refine (Refines.ofExcept _).bind fun name => (h.eval _ _).bind fun v => ?_
    exact (Refines.update fun _ _ => rfl).bind fun _ => .pure _
  · exact .raise _

theorem defineMacro_refines (args : List Value) (scope : Scope) :
    Refines R (defineMacro a args scope) (defineMacro b args scope) := by
  unfold defineMacro
  split
  · refine (Refines.ofExcept _).bind fun name => (h.eval _ _).bind fun v => ?_
    split
    · exact (Refines.update fun _ _ => rfl).bind fun _ => .pure _
    · exact .raise _
  · exact .raise _

theorem bindLocal_refines (args : List Value) (scope : Scope) :
    Refines R (bindLocal a args scope) (bindLocal b args scope) := by
  unfold bindLocal
  split
  · split
    · exact .raise _
    · split
      · refine (Refines.modify fun _ _ => rfl).bind fun inner => ?_
        exact (bindEach_refines h _ _).bind fun _ => .pure _
      · exact .raise _
  · exact .raise _

theorem doInOrder_refines (args : List Value) (scope : Scope) :
    Refines R (doInOrder a args scope) (doInOrder b args scope) := by
  fun_induction doInOrder a args scope with
  | case1 => exact .raise _
  | case2 form => exact .pure _
  | case3 form forms hforms ih =>
    rw [doInOrder]
    · exact (h.eval _ _).bind fun _ => ih
    · exact hforms

theorem choose_refines (args : List Value) (scope : Scope) :
    Refines R (choose a args scope) (choose b args scope) := by
  unfold choose
  split
  · refine (h.eval _ _).bind fun v => ?_
    split
    · exact .pure _
    · exact .pure _
  · refine (h.eval _ _).bind fun v => ?_
    split
    · exact .pure _
    · exact .pure _
  · exact .raise _

theorem template_refines (who : SpecialForm) (args : List Value) :
    Refines R (template a who args) (template b who args) := by
  unfold template
  split
  · exact h.template _
  · exact .raise _

theorem macroExpand_refines {n m : Nat} (hnm : n ≤ m) (args : List Value) (scope : Scope) :
    Refines R (macroExpand a n args scope) (macroExpand b m args scope) := by
  unfold macroExpand
  split
  · exact (expand_refines h hnm _ _).bind fun _ => .pure _
  · exact .raise _

omit h in
theorem catchClause_refines (clause : Value) :
    Refines R (catchClause clause) (catchClause clause) := by
  unfold catchClause
  split
  · split
    · exact (Refines.ofExcept _).bind fun _ => .pure _
    · exact .raise _
  · exact (Refines.shown .readable _).bind fun _ => .raise _

theorem tryCatch_refines (args : List Value) (scope : Scope) :
    Refines R (tryCatch a args scope) (tryCatch b args scope) := by
  unfold tryCatch
  split
  · exact .pure _
  · refine (catchClause_refines _).bind fun clause => ?_
    refine (h.eval _ _).handle (fun v => .pure _) fun e => ?_
    refine (Refines.modify fun _ _ => rfl).bind fun inner => ?_
    exact (Refines.update fun _ _ => rfl).bind fun _ => .pure _
  · exact .raise _

theorem evalGlobal_refines (args : List Value) (scope : Scope) :
    Refines R (evalGlobal a args scope) (evalGlobal b args scope) := by
  unfold evalGlobal
  split
  · exact (h.eval _ _).bind fun _ => .pure _
  · exact .raise _

omit h in
theorem function_refines (args : List Value) (scope : Scope) :
    Refines R (function args scope) (function args scope) := by
  unfold function
  split
  · split
    · exact .raise _
    · exact (Refines.ofExcept _).bind fun _ => .pure _
  · exact .raise _

omit h in
theorem quote_refines (args : List Value) : Refines R (quote args) (quote args) := by
  unfold quote
  split
  · exact .pure _
  · exact .raise _

theorem special_refines {n m : Nat} (hnm : n ≤ m) (form : SpecialForm) (args : List Value)
    (scope : Scope) : Refines R (special a n form args scope) (special b m form args scope) := by
  cases form with
  | define => exact define_refines h args scope
  | defineMacro => exact defineMacro_refines h args scope
  | bindLocal => exact bindLocal_refines h args scope
  | doInOrder => exact doInOrder_refines h args scope
  | choose => exact choose_refines h args scope
  | function => exact function_refines args scope
  | quote => exact quote_refines args
  | quasiquote | quasiquoteExpand => exact (template_refines h _ args).bind fun _ => .pure _
  | macroExpand => exact macroExpand_refines h hnm args scope
  | tryCatch => exact tryCatch_refines h args scope
  | evalGlobal => exact evalGlobal_refines h args scope

theorem invoke_refines {n m : Nat} (hnm : n ≤ m) (f : Value) (args : List Value) :
    Refines R (invoke a n f args) (invoke b m f args) := by
  cases f with
  | builtin f =>
    exact (Builtin.call_refines h.read (apply_refines h hnm) f args).bind fun _ => .pure _
  | closure params body scope isMacro tag =>
    exact (enterClosure_refines _ _ _).bind fun _ => .pure _
  | _ => exact notCallable_refines _

theorem stepCall_refines {n m : Nat} (hnm : n ≤ m) (head : Value) (args : List Value)
    (scope : Scope) : Refines R (stepCall a n head args scope) (stepCall b m head args scope) := by
  unfold stepCall
  split
  · exact special_refines h hnm _ _ _
  · refine (h.eval _ _).bind fun f => (evalEach_refines h _ _ _).bind fun args => ?_
    exact invoke_refines h hnm f args

/-- Taking a step refines along with the nested calls and with the fuel. -/
theorem step_refines {n m : Nat} (hnm : n ≤ m) (form : Value) (scope : Scope) :
    Refines R (step a n form scope) (step b m form scope) := by
  unfold step
  split
  · exact (evalPlain_refines h _ _).bind fun _ => .pure _
  · refine (expand_refines h hnm _ _).bind fun form => ?_
    split
    · exact (evalPlain_refines h _ _).bind fun _ => .pure _
    · exact stepCall_refines h hnm _ _ _

/-- A loop of steps refines along with the nested calls and with the fuel. -/
theorem loop_refines {n m k l : Nat} (hnm : n ≤ m) (hkl : k ≤ l) (form : Value)
    (scope : Scope) : Refines R (loop a n k form scope) (loop b m l form scope) := by
  induction k generalizing l form scope with
  | zero => exact .unfinished _
  | succ k ih =>
    obtain ⟨l, rfl⟩ := Nat.exists_eq_add_of_lt hkl
    refine (step_refines h hnm form scope).bind fun next => ?_
    cases next with
    | done v => exact .pure v
    | next form scope => exact ih (Nat.le_add_right k l) form scope

end Forms

end Eval

end Lisp
