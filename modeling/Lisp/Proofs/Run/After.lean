import Lisp.Run

/-!
# What a run leads to

`x.After s Q` says that `Q` holds of the value and the state that the run `x` ends with when it is
started in `s`; of runs that fail or do not end nothing is said. Two things done in turn end alike
if the first do and the second agree on all that the first lead to.
-/

namespace Lisp.Run

variable {α β : Type} {x y : Run α} {f g : α → Run β} {s t : State} {a : α}
  {Q Q' : α → State → Prop} {R : β → State → Prop}

/-- The property holds of the value that the run yields and the state that it leaves behind. -/
def After (x : Run α) (s : State) (Q : α → State → Prop) : Prop :=
  ∀ a t, x s = .done a t → Q a t

namespace After

theorem mono (h : x.After s Q) (hQ : ∀ a t, Q a t → Q' a t) : x.After s Q' :=
  fun a t hx => hQ a t (h a t hx)

theorem pure (h : Q a s) : After (pure a) s Q := by
  rintro _ _ ⟨⟩
  exact h

theorem of_eq (h : x s = .done a t) (hQ : Q a t) : x.After s Q := by
  rintro _ _ hx
  cases h.symm.trans hx
  exact hQ

theorem bind (h : x.After s fun a t => (f a).After t R) : (x >>= f).After s R := by
  intro b u hb
  rw [bind_apply] at hb
  rcases hx : x s with ⟨a, t⟩ | ⟨e, t⟩ | _
  · rw [hx] at hb
    exact h a t hx b u hb
  · rw [hx] at hb
    cases hb
  · rw [hx] at hb
    cases hb

theorem map {f : α → β} (h : x.After s fun a t => R (f a) t) : (f <$> x).After s R :=
  bind (h.mono fun _ _ => pure)

theorem ofExcept {x : Except Error α} (h : ∀ a, x = .ok a → Q a s) :
    (ofExcept x).After s Q := by
  cases x with
  | ok a => exact pure (h a rfl)
  | error e => exact nofun

end After

/-- What is done in turn ends alike if the first runs do, and so do the second ones wherever those
lead. -/
theorem bind_congr_after (hxy : x s = y s) (hfg : y.After s fun a t => f a t = g a t) :
    (x >>= f) s = (y >>= g) s := by
  rw [bind_apply, bind_apply, hxy]
  rcases hy : y s with ⟨a, t⟩ | ⟨e, t⟩ | _
  · exact hfg a t hy
  · rfl
  · rfl

end Lisp.Run
