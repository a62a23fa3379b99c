import Lisp.Error

/-!
# Computations within a number of levels

Reading a text and expanding a template take levels of nesting of which a limit leaves only some.
Such a computation is `Levelled` if it is refused only for want of levels: where it is not
refused, more levels change nothing, and there is a number of levels that is always enough. What it
yields with as many is what it yields without any limit.
-/

namespace Lisp

variable {α β : Type}

/-- The computation asked for more levels than there were. -/
def Refused (x : Except Error α) : Prop :=
  ∃ limit, x = .error (.depthExceeded limit)

@[simp] theorem not_refused_ok (a : α) : ¬ Refused (.ok a : Except Error α) :=
  fun ⟨_, h⟩ => by cases h

@[simp] theorem not_refused_pure (a : α) : ¬ Refused (pure a : Except Error α) :=
  not_refused_ok a

@[simp] theorem refused_error_iff {e : Error} :
    Refused (.error e : Except Error α) ↔ ∃ limit, e = .depthExceeded limit := by
  simp [Refused]

/-- Something is refused in a sequence if its first part is refused, or if the rest is. -/
theorem refused_bind_iff {x : Except Error α} {f : α → Except Error β} :
    Refused (x >>= f) ↔ Refused x ∨ ∃ a, x = .ok a ∧ Refused (f a) := by
  cases x with
  | error e => simp [bind, Except.bind]
  | ok a => simp [bind, Except.bind]

@[simp] theorem refused_map_iff {x : Except Error α} {f : α → β} :
    Refused (f <$> x) ↔ Refused x := by
  cases x with
  | error e => simp [Functor.map, Except.map]
  | ok a => simp [Functor.map, Except.map]

/-- `f limit depth` is a computation that finds `limit - depth` levels left. -/
structure Levelled (f : Nat → Nat → Except Error α) (enough : Nat) : Prop where
  /-- More levels change nothing where there were enough. -/
  mono : ∀ {limit depth limit' depth'}, limit - depth ≤ limit' - depth' →
    ¬ Refused (f limit depth) → f limit' depth' = f limit depth
  /-- This many levels are enough. -/
  enough : ¬ Refused (f enough 0)

namespace Levelled

variable {f : Nat → Nat → Except Error α} {enough : Nat}

/-- Whatever levels are left, a computation that is not refused does what it does without a
limit. -/
theorem eq_unlimited (h : Levelled f enough) {limit depth : Nat}
    (hf : ¬ Refused (f limit depth)) : f limit depth = f enough 0 := by
  rcases Nat.le_total (limit - depth) (enough - 0) with hle | hle
  · exact (h.mono hle hf).symm
  · exact h.mono hle h.enough

end Levelled

end Lisp
