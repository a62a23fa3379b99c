import Lisp.Proofs.Eval.Refinement
import Lisp.Proofs.Run.Levels

/-!
# Fuel

More fuel never changes how an evaluation ends. `Ends x s o` says that the runs `x`, one for each
amount of fuel, end in `o` from `s` once they are given enough of it.
-/

namespace Lisp

open Run

variable {α : Type} {s : State}

/-- Where the counts are the same, a run refines another if they agree wherever the first ends. -/
theorem Run.Refines.of_eq {x y : Run α} (h : ∀ s, x s ≠ .unfinished → y s = x s) :
    Refines Counts.same x y := by
  intro s c hc
  cases hc
  rw [State.withCounts_counts]
  by_cases hx : x s = .unfinished
  · rw [hx]
    exact .unfinished _
  · rw [h s hx]
    rcases hout : x s with ⟨a, t⟩ | ⟨e, t⟩ | _
    · exact .done a (s := t) (c := t.counts) rfl
    · exact .failed e (s := t) (c := t.counts) rfl
    · exact absurd hout hx

/-- A nested call refines along with what it consists of. -/
theorem Run.Refines.guarded {x y : Run α} (h : Refines Counts.same x y) :
    Refines Counts.same (guarded x) (guarded y) := by
  refine .of_eq fun s hs => ?_
  by_cases hlimit : s.limit ≤ s.depth
  · rw [guarded_of_limit_le x hlimit, guarded_of_limit_le y hlimit]
  · have hlt : s.depth < s.limit := Nat.lt_of_not_le hlimit
    rw [guarded_of_depth_lt x hlt] at hs ⊢
    have hx : x { s with depth := s.depth + 1 } ≠ .unfinished := by
      intro hx
      rw [hx] at hs
      exact hs rfl
    rw [guarded_of_depth_lt y hlt, h.apply_eq hx]

/-- The nested calls refine along with evaluation. -/
theorem limited_refines {n m : Nat}
    (h : ∀ form scope, Refines Counts.same (eval n form scope) (eval m form scope)) :
    (NestedCalls.limited n).Refines Counts.same (.limited m) where
  eval := h
  read _ := .of_eq fun _ _ => rfl
  template _ := .of_eq fun _ _ => rfl

theorem eval_refines {n m : Nat} (h : n ≤ m) (form : Value) (scope : Scope) :
    Refines Counts.same (eval n form scope) (eval m form scope) := by
  induction n generalizing m form scope with
  | zero => exact .unfinished _
  | succ n ih =>
    obtain ⟨m, rfl⟩ := Nat.exists_eq_add_of_lt h
    have hle : n ≤ n + m := Nat.le_add_right n m
    exact (Eval.loop_refines (limited_refines (ih hle)) hle hle form scope).guarded

/-- More fuel never changes how a loop ends. -/
theorem loop_apply_eq {n m k l : Nat} {form : Value} {scope : Scope} (hnm : n ≤ m) (hkl : k ≤ l)
    (h : Eval.loop (.limited n) n k form scope s ≠ .unfinished) :
    Eval.loop (.limited m) m l form scope s = Eval.loop (.limited n) n k form scope s :=
  (Eval.loop_refines (limited_refines (eval_refines hnm)) hnm hkl form scope).apply_eq h

/-- Below the limit a form is evaluated by a loop one level further in. -/
theorem eval_eq_loop (hs : s.depth < s.limit) (n : Nat) (form : Value) (scope : Scope) :
    eval (n + 1) form scope s =
      (Eval.loop (.limited n) n n form scope s.deeper).mapState State.shallower := by
  rw [eval_succ, guarded_eq_mapState _ hs]

theorem Outcome.ne_unfinished_of_mapState {o : Outcome α} {f : State → State}
    (h : o.mapState f ≠ .unfinished) : o ≠ .unfinished := by
  rintro rfl
  exact h rfl

/-- With fuel enough a run ends in `o`. -/
def Ends (x : Nat → Run α) (s : State) (o : Outcome α) : Prop :=
  o ≠ .unfinished ∧ ∃ n, x n s = o

/-- What a run ends in, it ends in with any fuel that is enough. -/
theorem Ends.eq_of_le {x : Nat → Run α} (hx : ∀ {n m}, n ≤ m → Refines Counts.same (x n) (x m))
    {o : Outcome α} (h : Ends x s o) : ∃ n, ∀ m ≥ n, x m s = o := by
  obtain ⟨ho, n, rfl⟩ := h
  exact ⟨n, fun m hm => (hx hm).apply_eq ho⟩

end Lisp
