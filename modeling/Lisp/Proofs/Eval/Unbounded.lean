import Lisp.Proofs.Eval.Levels
import Lisp.Proofs.Eval.TailCalls
import Lisp.Proofs.Run.Eventually

/-!
# Evaluation without bounds

What evaluating a form amounts to if neither the limit on nesting nor fuel gets in the way.
`Evaluates.unbounded` says that evaluation ends like that whenever no nested call is refused.
Without a limit the count of nested calls does not show, so a nested call is no different from any
other, and a form evaluates to what its rules say about the values of its parts.
-/

namespace Lisp

open Run Policy

/-! ### Counting nested calls without a limit -/

/-- Different numbers of nested calls are under way. -/
def Counts.shifted (a b : Nat) (c d : Counts) : Prop :=
  c.depth = a ∧ d.depth = b ∧ d.limit = c.limit

section Shifted

variable {α : Type} {a b : Nat} {x y : Run α}

/-- One level further out an outcome that is not unfinished is refined by itself, as it is seen
there, alone. -/
theorem Outcome.Refines.eq_of_shifted {d : Nat} {o p : Outcome α}
    (h : Refines (Counts.shifted (d + 1) d) o p) (ho : o ≠ .unfinished) :
    p = o.mapState State.shallower := by
  have hshallower {t : State} {c : Counts} (hc : Counts.shifted (d + 1) d t.counts c) :
      t.withCounts c = t.shallower := by
    obtain ⟨hdepth, hc, hlimit⟩ := hc
    have hdepth : t.depth = d + 1 := hdepth
    rw [State.withCounts, hc, hlimit, State.shallower, hdepth]
    rfl
  cases h with
  | unfinished => exact absurd rfl ho
  | done v hc => exact congrArg (Outcome.done v) (hshallower hc)
  | failed e hc => exact congrArg (Outcome.failed e) (hshallower hc)

theorem counted_refines_shifted (h : Refines (Counts.shifted (a + 1) (b + 1)) x y) :
    Refines (Counts.shifted a b) (counted x) (counted y) :=
  counted_refines_of h
    (fun ⟨ha, hb, hlimit⟩ => ⟨congrArg (· + 1) ha, congrArg (· + 1) hb, hlimit⟩)
    fun ⟨ha, hb, hlimit⟩ => ⟨congrArg (· - 1) ha, congrArg (· - 1) hb, hlimit⟩

/-- Counting a run does not show if its counts do not. -/
theorem counted_eq (h : ∀ a b, Refines (Counts.shifted a b) x x) : counted x = x := by
  funext s
  have hin : (x s.deeper).Refines (Counts.shifted (s.depth + 1) s.depth) (x s) :=
    h _ _ s.deeper s.counts ⟨rfl, rfl, rfl⟩
  have hout : (x s).Refines (Counts.shifted s.depth (s.depth + 1)) (x s.deeper) :=
    h _ _ s ⟨s.depth + 1, s.limit⟩ ⟨rfl, rfl, rfl⟩
  change (x s.deeper).mapState State.shallower = x s
  generalize x s.deeper = o, x s = p at hin hout
  by_cases ho : o = .unfinished
  · subst ho
    cases hout
    rfl
  · exact (hin.eq_of_shifted ho).symm

end Shifted

theorem direct_refines_shifted (n a b : Nat) (form : Value) (scope : Scope) :
    Refines (Counts.shifted a b) (unlimited.direct n form scope)
      (unlimited.direct n form scope) := by
  induction n generalizing a b form scope with
  | zero => exact .unfinished _
  | succ n ih =>
    let calls := unlimited.calls fun form scope => unlimited.guard (unlimited.direct n form scope)
    have hcalls : calls.Refines (Counts.shifted a b) calls :=
      ⟨fun form scope => counted_refines_shifted (ih (a + 1) (b + 1) form scope),
        fun _ => .ofExcept _, fun _ => .ofExcept _⟩
    rw [direct_succ]
    refine (Eval.step_refines hcalls (Nat.le_refl n) form scope).bind fun next => ?_
    cases next with
    | done v => exact .pure v
    | next form scope => exact ih a b form scope

/-- Without a limit a nested call is no different from any other. -/
theorem guard_direct (n : Nat) (form : Value) (scope : Scope) :
    unlimited.guard (unlimited.direct n form scope) = unlimited.direct n form scope :=
  counted_eq fun a b => direct_refines_shifted n a b form scope

/-- Evaluating without a limit is taking a step and evaluating what that leads to. -/
theorem direct_succ_unlimited (n : Nat) (form : Value) (scope : Scope) :
    unlimited.direct (n + 1) form scope =
      Eval.step (unlimited.calls (unlimited.direct n)) n form scope >>=
        Eval.Step.proceed (unlimited.direct n) := by
  rw [direct_succ]
  simp only [guard_direct]

/-! ### Evaluation with fuel enough -/

theorem unlimited_le {R : Counts → Counts → Prop} (hR : Counts.Raises R) :
    Le R unlimited unlimited where
  guard h := counted_refines hR h
  confined _ := .ofExcept _

theorem growing_direct (form : Value) (scope : Scope) :
    Growing fun n => unlimited.direct n form scope :=
  fun _ _ h => direct_refines (unlimited_le Counts.raises_same) h form scope

/-- The value of a form in a scope if there is no limit on nesting, with fuel enough. -/
noncomputable def evalUnbounded (form : Value) (scope : Scope) : Run Value :=
  eventually fun n => unlimited.direct n form scope

/-- Nested calls without a limit, with fuel enough. -/
noncomputable def NestedCalls.unbounded : NestedCalls :=
  unlimited.calls evalUnbounded

section Evaluation

variable {form : Value} {scope : Scope} {s : State} {o : Outcome Value}

/-- An evaluation in which no nested call is refused ends the way it would without bounds. -/
theorem Evaluates.unbounded (h : Evaluates form scope s o) : evalUnbounded form scope s = o := by
  obtain ⟨ho, n, hn, -⟩ := h.directly
  rw [guard_direct] at hn
  exact (growing_direct form scope).eventually_eq_of_ends ⟨ho, n, hn⟩

/-- A form means what a step of it leads to, if that goes for all fuel. -/
theorem evalUnbounded_eq {x : Nat → Run Value} (hx : Growing x)
    (h : ∀ n, (Eval.step (unlimited.calls (unlimited.direct (n + 1))) (n + 1) form scope >>=
      Eval.Step.proceed (unlimited.direct (n + 1))) s = x (n + 1) s) :
    evalUnbounded form scope s = eventually x s := by
  refine (growing_direct form scope).eventually_congr hx (n := 1) (k := 1) fun m hm => ?_
  obtain ⟨m, rfl⟩ := Nat.exists_eq_add_of_le' hm
  rw [direct_succ_unlimited]
  exact h m

theorem growing_evalEach (scope : Scope) (done forms : List Value) :
    Growing fun n => Eval.evalEach (unlimited.calls (unlimited.direct n)) scope done forms := by
  intro n m h
  refine Eval.evalEach_refines ?_ scope done forms
  exact (unlimited_le Counts.raises_same).calls fun form scope => growing_direct form scope h

theorem eventually_evalEach (scope : Scope) (done forms : List Value) :
    eventually (fun n => Eval.evalEach (unlimited.calls (unlimited.direct n)) scope done forms) =
      Eval.evalEach .unbounded scope done forms := by
  induction forms generalizing done with
  | nil => exact eventually_const _
  | cons form forms ih =>
    refine ((growing_direct form scope).eventually_bind fun v =>
      growing_evalEach scope (v :: done) forms).trans ?_
    exact bind_congr fun v => ih (v :: done)

/-! ### What forms mean -/

/-- A form that is no call means what it yields, if that involves no evaluation. -/
theorem evalUnbounded_plain {v : Value} (hform : form.call? = none)
    (hv : ∀ nested, Eval.evalPlain nested form scope s = .done v s) :
    evalUnbounded form scope s = .done v s := by
  refine (evalUnbounded_eq (growing_const (pure v)) fun n => ?_).trans (by simp)
  simp only [Eval.step, hform]
  change ((Eval.evalPlain _ form scope s).andThen _).andThen _ = _
  rw [hv]
  rfl

section Special

variable (who : SpecialForm) {args : List Value}
  (hwho : ∀ params body inner tag,
    s.lookup scope who.name ≠ some (.closure params body inner true tag))
include hwho

/-- A special form that is hidden by no macro means what its rules say. -/
theorem evalUnbounded_special {x : Nat → Run Value} (hx : Growing x)
    (h : ∀ n, (Eval.special (unlimited.calls (unlimited.direct (n + 1))) (n + 1) who args scope >>=
      Eval.Step.proceed (unlimited.direct (n + 1))) s = x (n + 1) s) :
    evalUnbounded (.list (.symbol who.name :: args)) scope s = eventually x s := by
  refine evalUnbounded_eq hx fun n => ?_
  rw [bind_apply, step_of_not_macro hwho n, stepCall_special]
  exact h n

end Special

/-- A call of a built-in function that calls no other means what the function yields for the values
of its operands, which are evaluated from left to right. -/
theorem evalUnbounded_builtin {name : String} {b : Builtin} {g : List Value → Run Value}
    (hname : SpecialForm.ofName? name = none) (hb : s.lookup scope name = some (.builtin b))
    (hg : ∀ read ap args, b.call read ap args = g args) (args : List Value) :
    evalUnbounded (.list (.symbol name :: args)) scope s =
      (Eval.evalEach .unbounded scope [] args >>= g) s := by
  have hmacro : ∀ params body inner tag,
      s.lookup scope name ≠ some (.closure params body inner true tag) := by
    rw [hb]
    exact nofun
  have hgrowing := (growing_evalEach scope [] args).bind fun vs => growing_const (g vs)
  refine (evalUnbounded_eq hgrowing fun n => ?_).trans ?_
  · have hsymbol : unlimited.direct (n + 1) (.symbol name) scope s = .done (.builtin b) s := by
      simp [direct_succ_unlimited, Eval.step, Eval.evalPlain, Value.call?, hb, Outcome.andThen,
        Eval.Step.proceed]
    have hcall (vs : List Value) : Eval.invoke (unlimited.calls (unlimited.direct (n + 1))) (n + 1)
        (.builtin b) vs >>= Eval.Step.proceed (unlimited.direct (n + 1)) = g vs := by
      rw [← Direct.call_eq]
      exact hg _ _ vs
    rw [bind_apply, step_of_not_macro hmacro n, stepCall_function hname, ← bind_apply, bind_assoc,
      bind_apply]
    change (unlimited.direct (n + 1) (.symbol name) scope s).andThen _ = _
    rw [hsymbol]
    simp only [Outcome.andThen, bind_assoc, hcall]
  · rw [(growing_evalEach scope [] args).eventually_bind fun vs => growing_const (g vs),
      eventually_evalEach]
    simp only [eventually_const]

end Evaluation

end Lisp
