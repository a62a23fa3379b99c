import Lisp.Proofs.Invariant.State
import Lisp.Run

/-!
# Disciplines of runs

`Run.Agree` says of two runs that, started where a discipline holds, they end alike: where it still
holds, with a result that has some property, or with an error whose payload is a value as the
discipline has it. More may be known in the end than in the beginning. It is a property of
everything that runs are built of, so runs that differ only in their parts agree if the parts do,
and that a single run keeps a discipline is that it agrees with itself.
-/

namespace Lisp

section Discipline

variable {W : Type} [Preorder W] {D : Discipline W} {α β : Type} {w w' : W} {P : α → Prop}
  {Q : W → α → Prop} {Q' : W → β → Prop}

/-- An outcome in which the discipline holds and no less is known than in `w`. -/
inductive Outcome.Within (D : Discipline W) (w : W) (Q : W → α → Prop) : Outcome α → Prop
  | done {w' : W} {a : α} {s : State} : w ≤ w' → D.Holds w' s → Q w' a → Within D w Q (.done a s)
  | failed {w' : W} {e : Error} {s : State} :
      w ≤ w' → D.Holds w' s → D.Value w' e.payload → Within D w Q (.failed e s)
  | unfinished : Within D w Q .unfinished

theorem Outcome.Within.mono {o : Outcome α} (h : w ≤ w') (ho : o.Within D w' Q) :
    o.Within D w Q := by
  cases ho with
  | done hle hs ha => exact .done (le_trans h hle) hs ha
  | failed hle hs he => exact .failed (le_trans h hle) hs he
  | unfinished => exact .unfinished

/-- Two runs that end alike, within the discipline, if no less is known than in `w` when they are
started. -/
def Run.Agree (D : Discipline W) (w : W) (Q : W → α → Prop) (x y : Run α) : Prop :=
  ∀ w' s, w ≤ w' → D.Holds w' s → x s = y s ∧ (x s).Within D w' Q

/-- A run that keeps to the discipline. -/
abbrev Run.KeepsTo (D : Discipline W) (w : W) (Q : W → α → Prop) (x : Run α) : Prop :=
  Agree D w Q x x

namespace Run.Agree

theorem unfinished : KeepsTo D w Q Run.unfinished :=
  fun _ _ _ _ => ⟨rfl, .unfinished⟩

theorem pure {a : α} (h : ∀ w', w ≤ w' → Q w' a) : KeepsTo D w Q (Pure.pure a) :=
  fun _ _ hw hs => ⟨rfl, .done (le_refl _) hs (h _ hw)⟩

theorem raise {e : Error} (h : ∀ w', w ≤ w' → D.Value w' e.payload) :
    KeepsTo D w Q (Run.raise e) :=
  fun _ _ hw hs => ⟨rfl, .failed (le_refl _) hs (h _ hw)⟩

/-- An error that nothing was thrown with. -/
theorem raise_leaf {e : Error} (h : e.payload.Childless) :
    KeepsTo D w Q (Run.raise e) :=
  raise fun _ _ => .leaf h

theorem bind {x y : Run α} {f g : α → Run β} (h : Agree D w Q x y)
    (k : ∀ w' a, w ≤ w' → Q w' a → Agree D w' Q' (f a) (g a)) :
    Agree D w Q' (x >>= f) (y >>= g) := by
  intro v s hv hs
  obtain ⟨hxy, hx⟩ := h v s hv hs
  rw [bind_apply, bind_apply, ← hxy]
  generalize x s = o at hx
  cases hx with
  | done hle ht ha =>
    obtain ⟨hfg, hf⟩ := k _ _ (le_trans hv hle) ha _ _ (le_refl _) ht
    exact ⟨hfg, hf.mono hle⟩
  | failed hle ht he => exact ⟨rfl, .failed hle ht he⟩
  | unfinished => exact ⟨rfl, .unfinished⟩

theorem handle {x y : Run α} {f f' : α → Run β} {g g' : Error → Run β} (h : Agree D w Q x y)
    (k : ∀ w' a, w ≤ w' → Q w' a → Agree D w' Q' (f a) (f' a))
    (k' : ∀ w' e, w ≤ w' → D.Value w' e.payload → Agree D w' Q' (g e) (g' e)) :
    Agree D w Q' (x.handle f g) (y.handle f' g') := by
  intro v s hv hs
  obtain ⟨hxy, hx⟩ := h v s hv hs
  unfold Run.handle
  rw [← hxy]
  generalize x s = o at hx
  cases hx with
  | done hle ht ha =>
    obtain ⟨hfg, hf⟩ := k _ _ (le_trans hv hle) ha _ _ (le_refl _) ht
    exact ⟨hfg, hf.mono hle⟩
  | failed hle ht he =>
    obtain ⟨hfg, hf⟩ := k' _ _ (le_trans hv hle) he _ _ (le_refl _) ht
    exact ⟨hfg, hf.mono hle⟩
  | unfinished => exact ⟨rfl, .unfinished⟩

theorem inspect {f : State → α} (h : ∀ w' s, w ≤ w' → D.Holds w' s → Q w' (f s)) :
    KeepsTo D w Q (Run.inspect f) :=
  fun w' s hw hs => ⟨rfl, .done (le_refl _) hs (h w' s hw hs)⟩

theorem printing {vs : List Value} {f : State → α}
    (h : ∀ w' s, w ≤ w' → D.Holds w' s → Q w' (f s)) : KeepsTo D w Q (Run.printing vs f) := by
  intro w' s hw hs
  refine ⟨rfl, ?_⟩
  unfold Run.printing
  split
  · exact .done (le_refl _) hs (h w' s hw hs)
  · exact .unfinished

/-- Asking the host for something that is no value. -/
theorem request {source : Source} {f : State → Except HostError α × State}
    (h : ∀ w' s, w ≤ w' → D.Holds w' s → D.Holds w' (f s).2) :
    KeepsTo D w (fun _ _ => True) (Run.request source f) := by
  intro w' s hw hs
  have ht := h w' s hw hs
  refine ⟨rfl, ?_⟩
  unfold Run.request
  generalize f s = answer at ht
  obtain ⟨a | cause, t⟩ := answer
  · exact .failed (le_refl _) ht (.leaf trivial)
  · exact .done (le_refl _) ht trivial

theorem modify {f : State → α × State} (h : ∀ w' s, w ≤ w' → D.Holds w' s →
      ∃ v, w' ≤ v ∧ D.Holds v (f s).2 ∧ Q v (f s).1) :
    KeepsTo D w Q (Run.modify f) := by
  intro w' s hw hs
  obtain ⟨v, hle, ht, ha⟩ := h w' s hw hs
  exact ⟨rfl, .done hle ht ha⟩

theorem update {f : State → State} (h : ∀ w' s, w ≤ w' → D.Holds w' s → D.Holds w' (f s)) :
    KeepsTo D w (fun _ _ => True) (Run.update f) :=
  fun w' s hw hs => ⟨rfl, .done (le_refl _) (h w' s hw hs) trivial⟩

theorem guarded {x y : Run α} (h : Agree D w Q x y) :
    Agree D w Q (Run.guarded x) (Run.guarded y) := by
  intro v s hv hs
  unfold Run.guarded
  split
  · exact ⟨rfl, .failed (le_refl _) hs (.leaf trivial)⟩
  · obtain ⟨hxy, hx⟩ := h v { s with depth := s.depth + 1 } hv (hs.of_eq rfl rfl)
    rw [← hxy]
    generalize x _ = o at hx
    refine ⟨rfl, ?_⟩
    cases hx with
    | done hle ht ha => exact .done hle (ht.of_eq rfl rfl) ha
    | failed hle ht he => exact .failed hle (ht.of_eq rfl rfl) he
    | unfinished => exact .unfinished

section Lawful

variable (hD : D.Lawful)
include hD

/-- A computation without a state keeps to the discipline. -/
theorem ofExcept {x : Except Error α} (h : (D.shape w).Answers P x) :
    KeepsTo D w (fun _ => P) (Run.ofExcept x) := by
  cases x with
  | ok a => exact pure fun _ _ => h
  | error e => exact raise fun w' hw => hD.value_mono hw h

/-- A computation without a state that yields a value. -/
theorem ofExcept_value {x : Except Error Value} (h : (D.shape w).Answers (D.Value w) x) :
    KeepsTo D w D.Value (Run.ofExcept x) := by
  cases x with
  | ok v => exact pure fun w' hw => hD.value_mono hw h
  | error e => exact raise fun w' hw => hD.value_mono hw h

theorem pure_value {v : Value} (h : D.Value w v) : KeepsTo D w D.Value (Pure.pure v) :=
  pure fun _ hw => hD.value_mono hw h

/-- Binding a name in a scope that forms are evaluated in. -/
theorem define {scope : Scope} (hscope : D.entered w scope) (name : String) {v : Value}
    (hv : D.Value w v) :
    KeepsTo D w (fun _ _ => True) (Run.update (·.define scope name v)) :=
  update fun _ _ hw hs => hs.bind hD (hD.entered_mono hw hscope) name (hD.value_mono hw hv)

/-- Adding a frame inside a scope, which forms may then be evaluated in. -/
theorem newChild {scope : Scope} (hscope : D.captured w scope) :
    KeepsTo D w D.entered (Run.modify (·.newChild scope)) :=
  modify fun _ _ hw hs => hs.newChild hD (hD.captured_mono hw hscope)

end Lawful

end Run.Agree

end Discipline

/-! ### Runs that keep an invariant -/

section Invariant

variable {I : Invariant} {α : Type} {n : Nat} {Q : Nat → α → Prop}

/-- An outcome in which the invariant holds and there are at least `n` frames. -/
inductive Outcome.Keeps (I : Invariant) (n : Nat) (Q : Nat → α → Prop) : Outcome α → Prop
  | done {a : α} {s : State} :
      n ≤ s.frames.size → I.Holds s → Q s.frames.size a → Keeps I n Q (.done a s)
  | failed {e : Error} {s : State} :
      n ≤ s.frames.size → I.Holds s → I.Value s.frames.size e.payload → Keeps I n Q (.failed e s)
  | unfinished : Keeps I n Q .unfinished

/-- A run that keeps the invariant if there are at least `n` frames when it is started. -/
def Run.Keeps (I : Invariant) (n : Nat) (Q : Nat → α → Prop) (x : Run α) : Prop :=
  ∀ s, n ≤ s.frames.size → I.Holds s → (x s).Keeps I n Q

theorem Outcome.within_discipline_iff {o : Outcome α} :
    o.Within I.discipline n Q ↔ o.Keeps I n Q := by
  constructor
  · intro h
    cases h with
    | done hle hs ha =>
      obtain ⟨rfl, hs'⟩ := Invariant.holds_discipline_iff.mp hs
      exact .done hle hs' ha
    | failed hle hs he =>
      obtain ⟨rfl, hs'⟩ := Invariant.holds_discipline_iff.mp hs
      exact .failed hle hs' he
    | unfinished => exact .unfinished
  · intro h
    cases h with
    | done hle hs ha => exact .done hle (Invariant.holds_discipline_iff.mpr ⟨rfl, hs⟩) ha
    | failed hle hs he => exact .failed hle (Invariant.holds_discipline_iff.mpr ⟨rfl, hs⟩) he
    | unfinished => exact .unfinished

/-- A run keeps an invariant if it keeps to its discipline. -/
theorem Run.Agree.keeps {x : Run α} (h : KeepsTo I.discipline n Q x) : Keeps I n Q x := by
  intro s hn hs
  obtain ⟨-, hx⟩ := h s.frames.size s hn (Invariant.holds_discipline_iff.mpr ⟨rfl, hs⟩)
  exact Outcome.within_discipline_iff.mp (hx.mono hn)

end Invariant

end Lisp
