import Lisp.Proofs.Eval.Fuel

/-!
# Counts behind an evaluation

However an evaluation ends, as many nested calls are under way as when it began, under the same
limit: `counts_eval`. Every nested call takes back the level that it took.
-/

namespace Lisp

open Run

namespace Counts

/-- Both counts are these. -/
def fixed (k c d : Counts) : Prop :=
  c = k ∧ d = k

end Counts

/-- What an outcome leaves behind, if anything, has these counts. -/
theorem Outcome.Refines.counts_of_fixed {α : Type} {o p : Outcome α} {k : Counts}
    (h : o.Refines (Counts.fixed k) p) :
    match o with
    | .done _ t | .failed _ t => t.counts = k
    | .unfinished => True := by
  cases h with
  | unfinished => trivial
  | done _ hd => exact hd.1
  | failed _ hd => exact hd.1

namespace Run

variable {α : Type} {x y : Run α} {k : Counts} {s : State}

/-- A nested call takes back the level that it took. -/
theorem Refines.guarded_fixed (h : Refines (Counts.fixed ⟨k.depth + 1, k.limit⟩) x y) :
    Refines (Counts.fixed k) (Run.guarded x) (Run.guarded y) := by
  intro s c hc
  obtain ⟨hs, rfl⟩ := hc
  subst hs
  rw [State.withCounts_counts]
  by_cases hlimit : s.limit ≤ s.depth
  · rw [guarded_of_limit_le x hlimit, guarded_of_limit_le y hlimit]
    exact .failed _ (s := s) (c := s.counts) ⟨rfl, rfl⟩
  · have hlt : s.depth < s.limit := Nat.lt_of_not_le hlimit
    have hxy : (x s.deeper).Refines (Counts.fixed ⟨s.depth + 1, s.limit⟩) (y s.deeper) :=
      h s.deeper s.deeper.counts ⟨rfl, rfl⟩
    rw [guarded_eq_mapState x hlt, guarded_eq_mapState y hlt]
    have hout {t : State} {d : Counts} (hd : Counts.fixed ⟨s.depth + 1, s.limit⟩ t.counts d) :
        Counts.fixed s.counts t.shallower.counts ⟨d.depth - 1, d.limit⟩ := by
      obtain ⟨ht, rfl⟩ := hd
      refine ⟨?_, rfl⟩
      exact congrArg (fun c : Counts => (⟨c.depth - 1, c.limit⟩ : Counts)) ht
    generalize x s.deeper = o, y s.deeper = p at hxy
    cases hxy with
    | unfinished => exact .unfinished _
    | done v hd => exact .done v (hout hd)
    | failed e hd => exact .failed e (hout hd)

/-- Where a run refines itself at fixed counts it leaves them behind. -/
theorem Refines.counts_done (h : Refines (Counts.fixed s.counts) x x) {a : α} {t : State}
    (hx : x s = .done a t) : t.counts = s.counts := by
  have hxx : (x s).Refines (Counts.fixed s.counts) (x s) := h s s.counts ⟨rfl, rfl⟩
  rw [hx] at hxx
  exact hxx.counts_of_fixed

theorem Refines.counts_failed (h : Refines (Counts.fixed s.counts) x x) {e : Error} {t : State}
    (hx : x s = .failed e t) : t.counts = s.counts := by
  have hxx : (x s).Refines (Counts.fixed s.counts) (x s) := h s s.counts ⟨rfl, rfl⟩
  rw [hx] at hxx
  exact hxx.counts_of_fixed

end Run

theorem confined_refines_fixed {α : Type} (f : Nat → Nat → Except Error α) (k : Counts) :
    Refines (Counts.fixed k) (fun s => ofExcept (f s.limit s.depth) s)
      (fun s => ofExcept (f s.limit s.depth) s) := by
  rintro s c ⟨hs, rfl⟩
  subst hs
  exact Refines.ofExcept (f s.limit s.depth) s s.counts ⟨rfl, rfl⟩

theorem limited_refines_fixed_of {n : Nat} {k : Counts}
    (h : ∀ form scope, Refines (Counts.fixed k) (eval n form scope) (eval n form scope)) :
    (NestedCalls.limited n).Refines (Counts.fixed k) (.limited n) where
  eval := h
  read text := confined_refines_fixed (fun limit depth => readFirst limit depth text) k
  template v := confined_refines_fixed
    (fun limit depth => Template.expand limit (limit - depth) v) k

theorem eval_refines_fixed (n : Nat) (k : Counts) (form : Value) (scope : Scope) :
    Refines (Counts.fixed k) (eval n form scope) (eval n form scope) := by
  induction n generalizing k form scope with
  | zero => exact .unfinished _
  | succ n ih =>
    have hcalls := limited_refines_fixed_of (ih ⟨k.depth + 1, k.limit⟩)
    exact (Eval.loop_refines hcalls (Nat.le_refl n) (Nat.le_refl n) form scope).guarded_fixed

/-- The nested calls leave the counts as they were. -/
theorem limited_refines_fixed (n : Nat) (k : Counts) :
    (NestedCalls.limited n).Refines (Counts.fixed k) (.limited n) :=
  limited_refines_fixed_of (eval_refines_fixed n k)

/-- An evaluation leaves the counts of nested calls as they were. -/
theorem counts_eval {n : Nat} {form : Value} {scope : Scope} {s t : State} {v : Value}
    (h : eval n form scope s = .done v t) : t.counts = s.counts :=
  (eval_refines_fixed n s.counts form scope).counts_done h

end Lisp
