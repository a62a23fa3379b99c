import Lisp.Proofs.Eval.Fuel

/-!
# Runs with fuel enough

Runs for each amount of fuel that end alike wherever they end amount to one run, which has no fuel:
it ends the way they do once they have fuel enough, and it stays unfinished where none is enough.
From some fuel on they are that run, which makes it compositional: what two of them do in turn
amounts to what the two do in turn that they amount to.
-/

namespace Lisp.Run

variable {α β : Type} {x y : Nat → Run α} {s : State} {o : Outcome α}

/-- More fuel never changes how the runs end. -/
def Growing (x : Nat → Run α) : Prop :=
  ∀ ⦃n m⦄, n ≤ m → Refines Counts.same (x n) (x m)

open Classical in
/-- The run that ends the way the runs do that have fuel enough. -/
noncomputable def eventually (x : Nat → Run α) : Run α := fun s =>
  if h : ∃ n, x n s ≠ .unfinished then x h.choose s else .unfinished

theorem growing_const (x : Run α) : Growing fun _ => x :=
  fun _ _ _ => .of_eq fun _ _ => rfl

theorem Growing.bind {f : Nat → α → Run β} (hx : Growing x)
    (hf : ∀ a, Growing fun n => f n a) : Growing fun n => x n >>= f n :=
  fun _ _ h => (hx h).bind fun a => hf a h

/-- From some fuel on the runs are the one that they amount to. -/
theorem Growing.exists_eq (hx : Growing x) (s : State) :
    ∃ n, ∀ m ≥ n, x m s = eventually x s := by
  by_cases h : ∃ n, x n s ≠ .unfinished
  · refine ⟨h.choose, fun m hm => ?_⟩
    rw [eventually, dif_pos h]
    exact (hx hm).apply_eq h.choose_spec
  · refine ⟨0, fun m _ => ?_⟩
    rw [eventually, dif_neg h]
    exact Classical.not_not.mp fun hm => h ⟨m, hm⟩

theorem Growing.eventually_eq (hx : Growing x) {n : Nat} (h : ∀ m ≥ n, x m s = o) :
    eventually x s = o := by
  obtain ⟨k, hk⟩ := hx.exists_eq s
  rw [← hk (max n k) (Nat.le_max_right n k), h (max n k) (Nat.le_max_left n k)]

/-- Runs that end with some fuel amount to one that ends alike. -/
theorem Growing.eventually_eq_of_ends (hx : Growing x) (h : Ends x s o) : eventually x s = o := by
  obtain ⟨n, hn⟩ := h.eq_of_le fun h => hx h
  exact hx.eventually_eq hn

/-- Runs amount to the same if they agree from some fuel on, where one may need more of it. -/
theorem Growing.eventually_congr (hx : Growing x) (hy : Growing y) {n k : Nat}
    (h : ∀ m ≥ n, x (m + k) s = y m s) : eventually x s = eventually y s := by
  obtain ⟨l, hl⟩ := hy.exists_eq s
  refine hx.eventually_eq (n := max n l + k) fun m hm => ?_
  obtain ⟨m, rfl⟩ := Nat.exists_eq_add_of_le' (Nat.le_of_add_left_le hm)
  have hm : max n l ≤ m := Nat.le_of_add_le_add_right hm
  rw [h m (Nat.le_trans (Nat.le_max_left n l) hm), hl m (Nat.le_trans (Nat.le_max_right n l) hm)]

@[simp] theorem eventually_const (x : Run α) : eventually (fun _ => x) = x := by
  funext s
  exact (growing_const x).eventually_eq (n := 0) fun _ _ => rfl

/-- What is done in turn amounts to what the parts amount to, done in turn. -/
theorem Growing.eventually_bind {f : Nat → α → Run β} (hx : Growing x)
    (hf : ∀ a, Growing fun n => f n a) :
    eventually (fun n => x n >>= f n) = eventually x >>= fun a => eventually fun n => f n a := by
  funext s
  obtain ⟨n, hn⟩ := hx.exists_eq s
  rw [bind_apply]
  rcases hout : eventually x s with ⟨a, t⟩ | ⟨e, t⟩ | _
  · obtain ⟨k, hk⟩ := (hf a).exists_eq t
    refine (hx.bind hf).eventually_eq (n := max n k) fun m hm => ?_
    rw [bind_apply, hn m (Nat.le_trans (Nat.le_max_left n k) hm), hout]
    exact hk m (Nat.le_trans (Nat.le_max_right n k) hm)
  · refine (hx.bind hf).eventually_eq (n := n) fun m hm => ?_
    rw [bind_apply, hn m hm, hout]
    rfl
  · refine (hx.bind hf).eventually_eq (n := n) fun m hm => ?_
    rw [bind_apply, hn m hm, hout]
    rfl

end Lisp.Run
