import Lisp.Proofs.State.Printing
import Lisp.Run

/-!
# Refinement of runs

`Run.Refines R x y` says that `x` may be unfinished where `y` is not, but wherever `x` ends, `y`
ends with the same value or error and in the same state. The two states may differ in their counts
of nested calls alone, and `R` says how the counts of the one are related to those of the other:
with `Counts.same` the states are equal, with `Counts.limits` only their limits differ.

Refinement is a congruence for everything that runs are built of, so two programs that differ in
their nested calls alone refine each other as soon as the nested calls do.
-/

namespace Lisp

/-- The counts of nested calls in a state. -/
structure Counts where
  depth : Nat
  limit : Nat

namespace Counts

/-- The counts are the same. -/
def same (c d : Counts) : Prop :=
  d = c

/-- As many nested calls are under way, under the limits `l` and `l'`. -/
def limits (l l' : Nat) (c d : Counts) : Prop :=
  d.depth = c.depth ∧ c.limit = l ∧ d.limit = l'

/-- The counts on the right leave at least as many levels, at whatever depth. -/
structure Raises (R : Counts → Counts → Prop) : Prop where
  depth_eq : ∀ {c d}, R c d → d.depth = c.depth
  limit_le : ∀ {c d}, R c d → c.limit ≤ d.limit
  at_depth : ∀ {c d}, R c d → ∀ n, R ⟨n, c.limit⟩ ⟨n, d.limit⟩

theorem raises_same : Raises same where
  depth_eq h := congrArg depth h
  limit_le h := Nat.le_of_eq (congrArg limit h).symm
  at_depth h n := by rw [same, congrArg limit h]

theorem raises_limits {l l' : Nat} (h : l ≤ l') : Raises (limits l l') where
  depth_eq h' := h'.1
  limit_le h' := by rwa [h'.2.1, h'.2.2]
  at_depth h' _ := ⟨rfl, h'.2⟩

end Counts

namespace State

/-- The counts of nested calls. -/
def counts (s : State) : Counts :=
  ⟨s.depth, s.limit⟩

/-- The state with other counts of nested calls. -/
def withCounts (s : State) (c : Counts) : State :=
  { s with depth := c.depth, limit := c.limit }

@[simp] theorem withCounts_counts (s : State) : s.withCounts s.counts = s := rfl

/-- The counts do not show in what a name means. -/
@[simp] theorem lookup_withCounts (s : State) (c : Counts) (scope : Scope) (name : String) :
    (s.withCounts c).lookup scope name = s.lookup scope name := by
  apply lookup_congr
  exact fun _ => rfl

@[simp] theorem bindAll_withCounts (s : State) (c : Counts) (f : FrameId)
    (bindings : List (String × Value)) :
    (s.withCounts c).bindAll f bindings = (s.bindAll f bindings).withCounts c := by
  induction bindings generalizing s with
  | nil => rfl
  | cons b bindings ih => exact ih (s.bind f b.1 b.2)

@[simp] theorem newChild_withCounts (s : State) (c : Counts) (scope : Scope) :
    (s.withCounts c).newChild scope =
      ((s.newChild scope).1, (s.newChild scope).2.withCounts c) := rfl

/-- The counts do not show in what an atom holds. -/
theorem shownAlike_withCounts (s : State) (c : Counts) (cell : CellId) :
    ((s.withCounts c).content cell).ShownAlike (s.content cell) :=
  .refl _

/-- The counts do not show in the text of a value. -/
@[simp] theorem render_withCounts (s : State) (c : Counts) (style : Style) :
    (s.withCounts c).render style = s.render style :=
  funext fun v => render_congr (s.shownAlike_withCounts c) rfl (.refl v) style

/-- The counts do not show in whether a value has a text. -/
@[simp] theorem prints_withCounts (s : State) (c : Counts) : (s.withCounts c).prints = s.prints :=
  funext fun v => prints_congr (s.shownAlike_withCounts c) rfl (.refl v)

end State

variable {R : Counts → Counts → Prop} {α β : Type}

/-- One outcome refines another: it is unfinished, or both are the same in states whose counts are
related. -/
inductive Outcome.Refines (R : Counts → Counts → Prop) : Outcome α → Outcome α → Prop
  | unfinished (o : Outcome α) : Refines R .unfinished o
  | done (a : α) {s : State} {c : Counts} :
      R s.counts c → Refines R (.done a s) (.done a (s.withCounts c))
  | failed (e : Error) {s : State} {c : Counts} :
      R s.counts c → Refines R (.failed e s) (.failed e (s.withCounts c))

/-- An outcome in states that are equal is refined by itself alone, unless it is unfinished. -/
theorem Outcome.Refines.eq_of_same {o p : Outcome α} (h : Refines Counts.same o p)
    (ho : o ≠ .unfinished) : p = o := by
  cases h with
  | unfinished => exact absurd rfl ho
  | done a hc | failed e hc =>
    cases hc
    rfl

/-- Under two limits, an outcome that is not unfinished is refined by itself under the other limit
alone. -/
theorem Outcome.Refines.eq_of_limits {l l' : Nat} {o p : Outcome α}
    (h : Refines (Counts.limits l l') o p) (ho : o ≠ .unfinished) :
    p = o.mapState fun s => { s with limit := l' } := by
  cases h with
  | unfinished => exact absurd rfl ho
  | @done a s c hc | @failed e s c hc =>
    obtain ⟨hdepth, -, hlimit⟩ := hc
    have hs : s.withCounts c = { s with limit := l' } := by
      rw [State.withCounts, hdepth, hlimit]
      rfl
    rw [hs]
    rfl

namespace Run

/-- `x` ends like `y` does wherever it ends, in states whose counts are related. -/
def Refines (R : Counts → Counts → Prop) (x y : Run α) : Prop :=
  ∀ (s : State) (c : Counts), R s.counts c → (x s).Refines R (y (s.withCounts c))

namespace Refines

/-- A run that never ends refines every other. -/
theorem unfinished (y : Run α) : Refines R Run.unfinished y :=
  fun _ _ _ => .unfinished _

theorem pure (a : α) : Refines R (Pure.pure a : Run α) (Pure.pure a) :=
  fun _ _ h => .done a h

theorem raise (e : Error) : Refines R (Run.raise e : Run α) (Run.raise e) :=
  fun _ _ h => .failed e h

/-- Refinement is a congruence for sequencing. -/
theorem bind {x y : Run α} {f g : α → Run β} (h : Refines R x y)
    (k : ∀ a, Refines R (f a) (g a)) : Refines R (x >>= f) (y >>= g) := by
  intro s c hc
  have hxy := h s c hc
  rw [bind_apply, bind_apply]
  generalize x s = o, y (s.withCounts c) = p at hxy
  cases hxy with
  | unfinished => exact .unfinished _
  | done a hc' => exact k a _ _ hc'
  | failed e hc' => exact .failed e hc'

/-- Refinement is a congruence for handling errors. -/
theorem handle {x y : Run α} {f g : α → Run β} {f' g' : Error → Run β} (h : Refines R x y)
    (k : ∀ a, Refines R (f a) (g a)) (k' : ∀ e, Refines R (f' e) (g' e)) :
    Refines R (x.handle f f') (y.handle g g') := by
  intro s c hc
  have hxy := h s c hc
  unfold Run.handle
  generalize x s = o, y (s.withCounts c) = p at hxy
  cases hxy with
  | unfinished => exact .unfinished _
  | done a hc' => exact k a _ _ hc'
  | failed e hc' => exact k' e _ _ hc'

/-- A computation without a state refines itself. -/
theorem ofExcept (x : Except Error α) : Refines R (Run.ofExcept x) (Run.ofExcept x) := by
  cases x with
  | ok a => exact pure a
  | error e => exact raise e

/-- Looking at a state refines itself if the counts do not show. -/
theorem inspect {f : State → α} (hf : ∀ s c, f (s.withCounts c) = f s) :
    Refines R (Run.inspect f) (Run.inspect f) := by
  intro s c hc
  rw [inspect_apply, inspect_apply, hf]
  exact .done _ hc

/-- Looking for texts refines itself if the counts do not show. -/
theorem printing {vs : List Value} {f : State → α} (hf : ∀ s c, f (s.withCounts c) = f s) :
    Refines R (Run.printing vs f) (Run.printing vs f) := by
  intro s c hc
  unfold Run.printing
  rw [State.prints_withCounts, hf]
  split
  · exact .done _ hc
  · exact .unfinished _

theorem shown (style : Style) (v : Value) : Refines R (Run.shown style v) (Run.shown style v) :=
  printing fun _ _ => by simp

/-- Changing a state refines itself if the change leaves the counts alone. -/
theorem modify {f : State → α × State}
    (hf : ∀ s c, f (s.withCounts c) = ((f s).1, (f s).2.withCounts c)) :
    Refines R (Run.modify f) (Run.modify f) := by
  intro s c hc
  have hcounts : (f s).2.counts = s.counts := by
    have h := congrArg (fun p => p.2.counts) (hf s s.counts)
    exact h
  rw [modify_apply, modify_apply, hf]
  exact .done _ (hcounts ▸ hc)

/-- Asking the host refines itself if the counts are left alone. -/
theorem request {source : Source} {f : State → Except HostError α × State}
    (hf : ∀ s c, f (s.withCounts c) = ((f s).1, (f s).2.withCounts c)) :
    Refines R (Run.request source f) (Run.request source f) := by
  intro s c hc
  have hcounts : (f s).2.counts = s.counts := by
    have h := congrArg (fun p => p.2.counts) (hf s s.counts)
    exact h
  rw [← hcounts] at hc
  unfold Run.request
  rw [hf]
  generalize f s = answer at hc
  obtain ⟨a | cause, t⟩ := answer
  · exact .failed _ hc
  · exact .done _ hc

theorem update {f : State → State} (hf : ∀ s c, f (s.withCounts c) = (f s).withCounts c) :
    Refines R (Run.update f) (Run.update f) :=
  modify (f := fun s => ((), f s)) fun s c => by rw [hf]

/-- A run that does not stay unfinished determines what it refines in the same state. -/
theorem apply_eq {x y : Run α} (h : Refines Counts.same x y) {s : State}
    (hs : x s ≠ .unfinished) : y s = x s :=
  (h s s.counts rfl).eq_of_same hs

/-- A run that does not stay unfinished determines what it refines under another limit. -/
theorem apply_limit_eq {x y : Run α} {s : State} {l : Nat}
    (h : Refines (Counts.limits s.limit l) x y) (hs : x s ≠ .unfinished) :
    y { s with limit := l } = (x s).mapState fun s => { s with limit := l } :=
  (h s ⟨s.depth, l⟩ ⟨rfl, rfl, rfl⟩).eq_of_limits hs

end Refines

end Run

end Lisp
