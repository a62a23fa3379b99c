import Lisp.Proofs.Eval.Refinement
import Lisp.Proofs.Nesting.Reader
import Lisp.Proofs.Nesting.Template

/-!
# Policies on nested calls

What becomes of a nested call for which the limit leaves no level: it fails, which is what happens
when a program is run, or it stops the whole run, or there is no limit and the call is made. The
second policy watches the limit without letting the program see it, so a run that ends under it is
a run in which no nested call was refused. `trampoline` is evaluation by a loop of steps under any
of the three, and `stopping_le` says that what ends under the second one ends alike under all.
-/

namespace Lisp

open Run

/-- What becomes of a nested call that finds no level left. -/
inductive Policy
  /-- It fails with an error. -/
  | failing
  /-- It stops the run, which then stays unfinished. -/
  | stopping
  /-- It is made: there is no limit. -/
  | unlimited
  deriving DecidableEq

namespace Policy

variable {α : Type}

/-- Counts a nested call while it is under way. -/
def counted (x : Run α) : Run α := fun s =>
  (x { s with depth := s.depth + 1 }).mapState fun s => { s with depth := s.depth - 1 }

/-- Runs `x` as one more nested call. -/
def guard (p : Policy) (x : Run α) : Run α := fun s =>
  match p with
  | failing => guarded x s
  | stopping => if s.limit ≤ s.depth then .unfinished else counted x s
  | unlimited => counted x s

/-- Runs a computation in the levels that are left, or in as many as are enough if there is no
limit. -/
def confined (p : Policy) (f : Nat → Nat → Except Error α) (enough : Nat) : Run α := fun s =>
  match p with
  | failing => ofExcept (f s.limit s.depth) s
  | stopping =>
    match f s.limit s.depth with
    | .error (.depthExceeded _) => .unfinished
    | x => ofExcept x s
  | unlimited => ofExcept (f enough 0) s

/-- The nested calls under a policy, of which evaluation is given. -/
def calls (p : Policy) (ev : Value → Scope → Run Value) : NestedCalls where
  eval := ev
  read text := p.confined (fun limit depth => readFirst limit depth text)
    ((tokenize text).length + 1)
  template v := p.confined (fun limit depth => Template.expand limit (limit - depth) v) v.height

/-- Evaluates a form by a loop of steps, as one more nested call. -/
def trampoline (p : Policy) : Nat → Value → Scope → Run Value
  | 0, _, _ => .unfinished
  | n + 1, form, scope => p.guard (Eval.loop (p.calls (p.trampoline n)) n n form scope)

/-- Evaluation is the loop under the policy that lets refused calls fail. -/
theorem trampoline_failing (n : Nat) : failing.trampoline n = eval n := by
  induction n with
  | zero => rfl
  | succ n ih =>
    funext form scope
    rw [trampoline, ih]
    rfl

/-! ### Comparing policies -/

/-- What ends under the policy `p` ends alike under `q`, in states whose counts are related. -/
structure Le (R : Counts → Counts → Prop) (p q : Policy) : Prop where
  guard : ∀ {α : Type} {x y : Run α}, Refines R x y → Refines R (p.guard x) (q.guard y)
  confined : ∀ {α : Type} {f : Nat → Nat → Except Error α} {enough : Nat}, Levelled f enough →
    Refines R (p.confined f enough) (q.confined f enough)

variable {R : Counts → Counts → Prop}

/-- The nested calls refine each other along with the policies and with evaluation. -/
theorem Le.calls {p q : Policy} (h : Le R p q) {ev ev' : Value → Scope → Run Value}
    (hev : ∀ form scope, Refines R (ev form scope) (ev' form scope)) :
    (p.calls ev).Refines R (q.calls ev') where
  eval := hev
  read text := h.confined (levelled_readFirst text)
  template v := h.confined (Template.levelled_expand v)

/-- Counting a nested call is a congruence, if the counts further in are related as those further
out are. -/
theorem counted_refines_of {R' : Counts → Counts → Prop} {x y : Run α} (h : Refines R' x y)
    (hin : ∀ {c d}, R c d → R' ⟨c.depth + 1, c.limit⟩ ⟨d.depth + 1, d.limit⟩)
    (hout : ∀ {c d}, R' c d → R ⟨c.depth - 1, c.limit⟩ ⟨d.depth - 1, d.limit⟩) :
    Refines R (counted x) (counted y) := by
  intro s c hc
  have hxy : (x { s with depth := s.depth + 1 }).Refines R'
      (y { s.withCounts c with depth := (s.withCounts c).depth + 1 }) :=
    h { s with depth := s.depth + 1 } ⟨c.depth + 1, c.limit⟩ (hin hc)
  unfold counted
  generalize x _ = o, y _ = o' at hxy
  cases hxy with
  | unfinished => exact .unfinished _
  | @done a t d hd =>
    exact .done a (s := { t with depth := t.depth - 1 }) (c := ⟨d.depth - 1, d.limit⟩) (hout hd)
  | @failed e t d hd =>
    exact .failed e (s := { t with depth := t.depth - 1 }) (c := ⟨d.depth - 1, d.limit⟩) (hout hd)

theorem counted_refines (hR : Counts.Raises R) {x y : Run α} (h : Refines R x y) :
    Refines R (counted x) (counted y) := by
  have hdepth {c d : Counts} (hc : R c d) (f : Nat → Nat) :
      R ⟨f c.depth, c.limit⟩ ⟨f d.depth, d.limit⟩ := by
    rw [hR.depth_eq hc]
    exact hR.at_depth hc _
  exact counted_refines_of h (fun hc => hdepth hc (· + 1)) fun hc => hdepth hc (· - 1)

/-- Below the limit every policy counts a nested call and makes it. -/
theorem guard_of_depth_lt (p : Policy) (x : Run α) {s : State} (h : s.depth < s.limit) :
    p.guard x s = counted x s := by
  cases p with
  | failing => exact guarded_of_depth_lt x h
  | stopping => exact if_neg (Nat.not_le.mpr h)
  | unlimited => rfl

/-- Where a confined computation is not refused, all policies agree on it, also under a higher
limit. -/
theorem confined_of_not_refused (q : Policy) {f : Nat → Nat → Except Error α} {enough : Nat}
    (h : Levelled f enough) {limit depth : Nat} (hr : ¬ Refused (f limit depth)) {s : State}
    (hs : limit - depth ≤ s.limit - s.depth) :
    q.confined f enough s = ofExcept (f limit depth) s := by
  have hmono : f s.limit s.depth = f limit depth := h.mono hs hr
  cases q with
  | failing => rw [confined, hmono]
  | stopping =>
    simp only [confined, hmono]
    split
    next l hl => exact absurd ⟨l, hl⟩ hr
    next => rfl
  | unlimited => rw [confined, h.eq_unlimited hr]

/-- What ends without a refused call ends alike under every policy, also under a higher limit. -/
theorem stopping_le (hR : Counts.Raises R) (q : Policy) : Le R stopping q where
  guard {α x y} h s c hc := by
    by_cases hs : s.depth < s.limit
    · have ht : (s.withCounts c).depth < (s.withCounts c).limit := by
        rw [show (s.withCounts c).depth = s.depth from hR.depth_eq hc]
        exact Nat.lt_of_lt_of_le hs (hR.limit_le hc)
      rw [guard_of_depth_lt _ x hs, guard_of_depth_lt q y ht]
      exact counted_refines hR h s c hc
    · rw [show stopping.guard x s = .unfinished from if_pos (Nat.not_lt.mp hs)]
      exact .unfinished _
  confined {α f enough} h s c hc := by
    by_cases hr : Refused (f s.limit s.depth)
    · obtain ⟨limit, hlimit⟩ := hr
      simp only [confined, hlimit]
      exact .unfinished _
    · have hle : s.limit - s.depth ≤ (s.withCounts c).limit - (s.withCounts c).depth := by
        rw [show (s.withCounts c).depth = s.depth from hR.depth_eq hc]
        exact Nat.sub_le_sub_right (hR.limit_le hc) _
      rw [confined_of_not_refused stopping h hr (Nat.le_refl _),
        confined_of_not_refused q h hr hle]
      exact Refines.ofExcept _ s c hc

end Policy

end Lisp
