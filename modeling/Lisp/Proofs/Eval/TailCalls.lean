import Lisp.Proofs.Eval.Direct

/-!
# The loop evaluates what recursion evaluates

The evaluator puts a form in tail position in the place of the form that it ends, with its scope,
and goes on in a loop; it makes nested calls up to a limit. `evaluates_iff_evaluatesDirectly` says
that as long as no nested call is refused this is the ordinary recursive evaluation that knows no
limit: both end with the same value or error and in the same state, output included, and a higher
limit changes nothing.

Both directions are refinements between the two evaluators under the policies that their nested
calls follow. Both count the same nested calls, so a loop that is entered further in follows
recursion that is entered further in; fuel is the only thing in which they differ.
-/

namespace Lisp

open Run Policy

variable {R : Counts → Counts → Prop} {p q : Policy}

/-- The loop ends the way direct evaluation does. -/
theorem direct_refines_loop (h : Le R p q) {n k m : Nat} (hk : n ≤ k) (hm : n ≤ m) (form : Value)
    (scope : Scope) :
    Refines R (p.direct n form scope)
      (Eval.loop (q.calls (q.trampoline k)) k m form scope) := by
  induction n generalizing k m form scope with
  | zero => exact .unfinished _
  | succ n ih =>
    obtain ⟨k, rfl⟩ := Nat.exists_eq_add_of_lt hk
    obtain ⟨m, rfl⟩ := Nat.exists_eq_add_of_lt hm
    -- Evaluation is nested one level further in, where the fuel is that of the hypothesis.
    have hnested (form : Value) (scope : Scope) :
        Refines R (p.guard (p.direct n form scope)) (q.trampoline (n + k + 1) form scope) :=
      h.guard (ih (Nat.le_add_right n k) (Nat.le_add_right n k) form scope)
    rw [direct_succ]
    refine (Eval.step_refines (h.calls hnested) (by omega) form scope).bind fun next => ?_
    cases next with
    | done v => exact .pure v
    | next form scope => exact ih (by omega) (Nat.le_add_right n m) form scope

/-- Direct evaluation ends the way the loop does, if nested calls do. -/
theorem loop_refines_direct (h : Le R p q) {n : Nat}
    (hn : ∃ K, ∀ N ≥ K, ∀ form scope,
      Refines R (p.trampoline n form scope) (q.guard (q.direct N form scope))) (m : Nat) :
    ∃ K, ∀ N ≥ K, ∀ form scope,
      Refines R (Eval.loop (p.calls (p.trampoline n)) n m form scope)
        (q.direct N form scope) := by
  obtain ⟨K, hK⟩ := hn
  induction m with
  | zero => exact ⟨0, fun _ _ _ _ => .unfinished _⟩
  | succ m ih =>
    obtain ⟨L, hL⟩ := ih
    refine ⟨max (max K n) L + 1, fun N hN form scope => ?_⟩
    obtain ⟨N, rfl⟩ := Nat.exists_eq_add_of_lt hN
    rw [direct_succ]
    refine (Eval.step_refines (h.calls (hK _ ?_)) ?_ form scope).bind fun next => ?_
    · omega
    · omega
    · cases next with
      | done v => exact .pure v
      | next form scope => exact hL _ (by omega) form scope

/-- Direct evaluation with fuel enough ends the way evaluation by a loop does. -/
theorem trampoline_refines_direct (h : Le R p q) (n : Nat) :
    ∃ K, ∀ N ≥ K, ∀ form scope,
      Refines R (p.trampoline n form scope) (q.guard (q.direct N form scope)) := by
  induction n with
  | zero => exact ⟨0, fun _ _ _ _ => .unfinished _⟩
  | succ n ih =>
    obtain ⟨K, hK⟩ := loop_refines_direct h ih n
    exact ⟨K, fun N hN form scope => h.guard (hK N hN form scope)⟩

/-- Evaluation by a loop refines itself under another policy and with more fuel. -/
theorem trampoline_refines_of_le (h : Le R p q) {n m : Nat} (hnm : n ≤ m) (form : Value)
    (scope : Scope) : Refines R (p.trampoline n form scope) (q.trampoline m form scope) := by
  induction n generalizing m form scope with
  | zero => exact .unfinished _
  | succ n ih =>
    obtain ⟨m, rfl⟩ := Nat.exists_eq_add_of_lt hnm
    have hle : n ≤ n + m := Nat.le_add_right n m
    exact h.guard (Eval.loop_refines (h.calls (ih hle)) hle hle form scope)

theorem trampoline_refines (h : Le R p q) (n : Nat) (form : Value) (scope : Scope) :
    Refines R (p.trampoline n form scope) (q.trampoline n form scope) :=
  trampoline_refines_of_le h (Nat.le_refl n) form scope

/-! ### Evaluations that end -/

/-- Evaluating a form ends in `o`, and no nested call is refused on the way. -/
def Evaluates (form : Value) (scope : Scope) (s : State) (o : Outcome Value) : Prop :=
  o ≠ .unfinished ∧ ∃ n, eval n form scope s = o ∧ stopping.trampoline n form scope s ≠ .unfinished

/-- Evaluating a form directly and without a limit ends in `o`, and the nesting of calls on the way
never exceeds the limit of the state. -/
def EvaluatesDirectly (form : Value) (scope : Scope) (s : State) (o : Outcome Value) : Prop :=
  o ≠ .unfinished ∧ ∃ n, unlimited.guard (unlimited.direct n form scope) s = o ∧
    stopping.guard (stopping.direct n form scope) s ≠ .unfinished

/-- A direct evaluation that ends does so with more fuel as well, and under a policy that is at
least its own. -/
theorem direct_refines (h : Le R p q) {n m : Nat} (hnm : n ≤ m) (form : Value) (scope : Scope) :
    Refines R (p.direct n form scope) (q.direct m form scope) := by
  induction n generalizing m form scope with
  | zero => exact .unfinished _
  | succ n ih =>
    obtain ⟨m, rfl⟩ := Nat.exists_eq_add_of_lt hnm
    rw [direct_succ, direct_succ]
    have hle : n ≤ n + m := Nat.le_add_right n m
    have hnested (form : Value) (scope : Scope) :
        Refines R (p.guard (p.direct n form scope)) (q.guard (q.direct (n + m) form scope)) :=
      h.guard (ih hle form scope)
    refine (Eval.step_refines (h.calls hnested) hle form scope).bind fun next => ?_
    cases next with
    | done v => exact .pure v
    | next form scope => exact ih hle form scope

variable {form : Value} {scope : Scope} {s : State} {o : Outcome Value}

/-- Evaluation that is not stopped is what happens when a program is run. -/
theorem eval_eq_stopping {n : Nat} (h : stopping.trampoline n form scope s ≠ .unfinished) :
    eval n form scope s = stopping.trampoline n form scope s := by
  rw [← trampoline_failing]
  exact (trampoline_refines (stopping_le Counts.raises_same failing) n form scope).apply_eq h

/-- What an evaluation ends in that is stopped at a refused call is what evaluating ends in. -/
theorem Evaluates.of_stopping {n : Nat} (h : stopping.trampoline n form scope s = o)
    (ho : o ≠ .unfinished) : Evaluates form scope s o := by
  subst h
  exact ⟨ho, n, eval_eq_stopping ho, ho⟩

/-- What direct evaluation ends in is what the loop ends in, if no call is refused. -/
theorem EvaluatesDirectly.evaluates (h : EvaluatesDirectly form scope s o) :
    Evaluates form scope s o := by
  obtain ⟨ho, n, hn, hstop⟩ := h
  have hle (q : Policy) : Le Counts.same stopping q := stopping_le Counts.raises_same q
  have hdirect : stopping.guard (stopping.direct n form scope) s = o := by
    have hfree := (hle unlimited).guard (direct_refines (hle unlimited) (Nat.le_refl n) form scope)
    rw [← hn, hfree.apply_eq hstop]
  have hloop : stopping.trampoline (n + 1) form scope s = o := by
    have hend := ((hle stopping).guard (direct_refines_loop (hle stopping) (Nat.le_refl n)
      (Nat.le_refl n) form scope)).apply_eq hstop
    rw [← hdirect, ← hend]
    rfl
  exact .of_stopping hloop ho

/-- What the loop ends in is what direct evaluation ends in, if no call is refused. -/
theorem Evaluates.directly (h : Evaluates form scope s o) : EvaluatesDirectly form scope s o := by
  obtain ⟨ho, n, hn, hstop⟩ := h
  have hle (q : Policy) : Le Counts.same stopping q := stopping_le Counts.raises_same q
  have hloop : stopping.trampoline n form scope s = o := by rw [← hn, eval_eq_stopping hstop]
  obtain ⟨K, hK⟩ := trampoline_refines_direct (hle unlimited) n
  obtain ⟨L, hL⟩ := trampoline_refines_direct (hle stopping) n
  refine ⟨ho, max K L, ?_, ?_⟩
  · rw [(hK _ (Nat.le_max_left K L) form scope).apply_eq hstop, hloop]
  · rw [(hL _ (Nat.le_max_right K L) form scope).apply_eq hstop]
    exact hstop

/-- An evaluation in which no call is refused is the same under a higher limit. -/
theorem Evaluates.raise_limit (h : Evaluates form scope s o) {l : Nat} (hl : s.limit ≤ l) :
    Evaluates form scope { s with limit := l } (o.mapState fun s => { s with limit := l }) := by
  obtain ⟨ho, n, hn, hstop⟩ := h
  have hle : Le (Counts.limits s.limit l) stopping stopping :=
    stopping_le (Counts.raises_limits hl) stopping
  have hloop : stopping.trampoline n form scope s = o := by rw [← hn, eval_eq_stopping hstop]
  have hraised : stopping.trampoline n form scope { s with limit := l } =
      o.mapState fun s => { s with limit := l } := by
    rw [← hloop]
    exact (trampoline_refines hle n form scope).apply_limit_eq hstop
  have hend : (o.mapState fun s => { s with limit := l }) ≠ .unfinished := by
    cases o with
    | unfinished => exact absurd rfl ho
    | done | failed => exact nofun
  exact .of_stopping hraised hend

/-- Evaluation by a loop is ordinary recursive evaluation as long as no nested call is refused, and
then the limit on nested calls does not matter. -/
theorem evaluates_iff_evaluatesDirectly (form : Value) (scope : Scope) (s : State)
    (o : Outcome Value) :
    (EvaluatesDirectly form scope s o ↔ Evaluates form scope s o) ∧
      ∀ l, s.limit ≤ l → Evaluates form scope s o →
        Evaluates form scope { s with limit := l } (o.mapState fun s => { s with limit := l }) :=
  ⟨⟨EvaluatesDirectly.evaluates, Evaluates.directly⟩, fun _ hl h => h.raise_limit hl⟩

/-- The choice `(if nil 1 2)`, evaluated where three nested calls are allowed, and then five. -/
theorem evaluates_choice_raised :
    let choice := Value.list [.symbol "if", .nil, .int 1, .int 2]
    let s := { State.initial Host.plain with limit := 3 }
    (3 ≤ 5 ∧ EvaluatesDirectly choice (.global 0) s (.done (.int 2) s)) ∧
      Evaluates choice (.global 0) { s with limit := 5 }
        (.done (.int 2) { s with limit := 5 }) := by
  intro choice s
  have hdirect : EvaluatesDirectly choice (.global 0) s (.done (.int 2) s) :=
    ⟨nofun, 3, rfl, by nofun⟩
  have heval := evaluates_iff_evaluatesDirectly choice (.global 0) s (.done (.int 2) s)
  exact ⟨⟨by decide, hdirect⟩, heval.2 5 (by decide) (heval.1.mp hdirect)⟩

end Lisp
