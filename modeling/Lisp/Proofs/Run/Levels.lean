import Lisp.Proofs.Run.Refinement

/-!
# Levels that a run takes

`Run.Takes k x s o` says that from `s` the run `x` ends in `o` if `k` levels of nesting are left,
and that otherwise it is refused and leaves the state as it is. This suits forms whose evaluation
changes nothing before it has been nested as deep as it gets. How many levels a form takes is then
found by going through its parts.
-/

namespace Lisp

/-- The state one level further in. -/
def State.deeper (s : State) : State :=
  { s with depth := s.depth + 1 }

/-- The state one level further out. -/
def State.shallower (s : State) : State :=
  { s with depth := s.depth - 1 }

@[simp] theorem State.lookup_deeper (s : State) (scope : Scope) (name : String) :
    s.deeper.lookup scope name = s.lookup scope name :=
  s.lookup_withCounts ⟨s.depth + 1, s.limit⟩ scope name

namespace Run

variable {α β : Type} {j k : Nat} {s t : State}

/-- From `s` the run ends in `o` if `k` levels are left, and otherwise it is refused. -/
def Takes (k : Nat) (x : Run α) (s : State) (o : Outcome α) : Prop :=
  x s = if s.depth + k ≤ s.limit then o else .failed (.depthExceeded s.limit) s

variable {x : Run α} {f : α → Run β} {a : α} {o : Outcome α} {p : Outcome β}

/-- Below the limit a nested call is what it consists of, one level further in. -/
theorem guarded_eq_mapState (x : Run α) (hs : s.depth < s.limit) :
    guarded x s = (x s.deeper).mapState State.shallower :=
  guarded_of_depth_lt x hs

/-- A nested call ends one level further out than what it consists of. -/
theorem guarded_eq_of_deeper (hs : s.depth < s.limit)
    (h : x s.deeper = o.mapState State.deeper) : guarded x s = o := by
  rw [guarded_eq_mapState x hs, h]
  cases o <;> rfl

/-- A refusal further in shows further out. -/
theorem guarded_of_refused (h : x s.deeper = .failed (.depthExceeded s.limit) s.deeper) :
    guarded x s = .failed (.depthExceeded s.limit) s := by
  by_cases hlimit : s.limit ≤ s.depth
  · exact guarded_of_limit_le x hlimit
  · exact guarded_eq_of_deeper (Nat.lt_of_not_le hlimit) h

theorem ofExcept_deeper (y : Except Error α) (s : State) :
    ofExcept y s.deeper = (ofExcept y s).mapState State.deeper := by
  cases y <;> rfl

namespace Takes

theorem eq (h : Takes k x s o) (hk : s.depth + k ≤ s.limit) : x s = o := by
  rw [h, if_pos hk]

theorem eq_refused (h : Takes k x s o) (hk : ¬ s.depth + k ≤ s.limit) :
    x s = .failed (.depthExceeded s.limit) s := by
  rw [h, if_neg hk]

theorem congr {y : Run α} (h : Takes k y s o) (hxy : x s = y s) : Takes k x s o :=
  hxy.trans h

/-- What comes behind a run does not matter where the levels do not suffice for the run. -/
theorem bind (hx : Takes k x s (.done a t)) (hf : s.depth + k ≤ s.limit → f a t = p) :
    Takes k (x >>= f) s p := by
  unfold Takes
  rw [bind_apply]
  split
  next hk =>
    rw [hx.eq hk]
    exact hf hk
  next hk =>
    rw [hx.eq_refused hk]
    rfl

/-- A run that leaves the state as it is may be followed by one that takes more levels. -/
theorem bind_more (hx : Takes j x s (.done a s)) (hjk : j ≤ k) (hf : Takes k (f a) s p) :
    Takes k (x >>= f) s p := by
  unfold Takes
  rw [bind_apply]
  by_cases hj : s.depth + j ≤ s.limit
  · rw [hx.eq hj]
    exact hf
  · rw [hx.eq_refused hj, if_neg fun hk => hj (Nat.le_trans (Nat.add_le_add_left hjk _) hk)]
    rfl

theorem bind_failed {e : Error} (hx : Takes k x s (.failed e t)) :
    Takes k (x >>= f) s (.failed e t) := by
  unfold Takes
  rw [bind_apply]
  split
  next hk => rw [hx.eq hk]; rfl
  next hk => rw [hx.eq_refused hk]; rfl

/-- A nested call takes one level more than what it consists of. -/
theorem guarded (h : Takes k x s.deeper (o.mapState State.deeper)) :
    Takes (k + 1) (guarded x) s o := by
  have hk : s.deeper.depth + k ≤ s.deeper.limit ↔ s.depth + (k + 1) ≤ s.limit := by
    rw [State.deeper, Nat.add_assoc, Nat.add_comm 1 k]
  by_cases hs : s.depth + (k + 1) ≤ s.limit
  · rw [Takes, if_pos hs]
    exact guarded_eq_of_deeper (by omega) (h.eq (hk.mpr hs))
  · rw [Takes, if_neg hs]
    exact guarded_of_refused (h.eq_refused (mt hk.mp hs))

/-- A nested call of a run that takes no levels takes one. -/
theorem guarded_of_eq (h : x s.deeper = o.mapState State.deeper) : Takes 1 (Run.guarded x) s o := by
  unfold Takes
  split
  next hs => exact guarded_eq_of_deeper hs h
  next hs => exact guarded_of_limit_le x (Nat.le_of_not_lt hs)

end Takes

end Run

end Lisp
