import Lisp.Proofs.Eval.Counts
import Lisp.Proofs.Session.Reachable

/-!
# Nested calls under watch

The count of nested calls is kept by hand: it is raised before it is compared with the limit, and
lowered where the call is refused or ends. `Watched.guarded alarm k x` does this step by step while
`k` nested calls are under way, and looks at the count on the way: where it is not as it has to be,
the run goes on with an `alarm`. The alarm may be any run. It may fail, stay unfinished or change
whatever it likes, so a watched run that does the same with every alarm gives none.

`Run.AgreeAt c x y` says that two runs do the same under the counts `c` and leave them behind. It is
a congruence for everything that an evaluation is made of, so a watched run agrees with the run
itself as soon as its nested calls do (`AgreeAt.guarded`).
-/

namespace Lisp

variable {α β : Type}

namespace Watched

variable (alarm : Run Unit)

/-- Gives the alarm unless the state is as it has to be. -/
def check (p : State → Prop) [DecidablePred p] : Run Unit := fun s =>
  if p s then .done () s else alarm s

/-- Runs something while `k` nested calls are under way; as many are counted when it begins and when
it ends, whether it fails or not. -/
def watching (k : Nat) (x : Run α) : Run α := do
  check alarm fun s => s.depth = k
  x.handle
    (fun a => do
      check alarm fun s => s.depth = k
      return a)
    (fun e => do
      check alarm fun s => s.depth = k
      .raise e)

/-- Lowers the count, which must not be zero. -/
def lower : Run Unit := do
  check alarm fun s => 0 < s.depth
  .update State.shallower

/-- Runs the body of a nested call and lowers the count behind it, whether it fails or not. -/
def leaving (x : Run α) : Run α :=
  x.handle
    (fun a => do
      lower alarm
      return a)
    (fun e => do
      lower alarm
      .raise e)

/-- A nested call while `k` others are under way. It is refused if these are as many as the limit
allows, and otherwise its body is run as one more, with which they are no more than that. -/
def guarded (k : Nat) (x : Run α) : Run α := do
  .update State.deeper
  if ← Run.inspect fun s => decide (s.limit < s.depth) then
    check alarm fun s => s.limit ≤ k
    lower alarm
    .raise (.depthExceeded (← Run.inspect fun s => s.limit))
  else
    check alarm fun s => k < s.limit ∧ s.depth ≤ s.limit
    leaving alarm (watching alarm (k + 1) x)

end Watched

/-! ### What is left behind -/

namespace Outcome

variable {s t : State}

@[simp] theorem leaves_done {a : α} : (done a s).Leaves t ↔ t = s := by
  constructor
  · rintro (⟨_, ⟨⟩⟩ | ⟨_, ⟨⟩⟩)
    rfl
  · rintro rfl
    exact .inl ⟨a, rfl⟩

@[simp] theorem leaves_failed {e : Error} : (failed e s : Outcome α).Leaves t ↔ t = s := by
  constructor
  · rintro (⟨_, ⟨⟩⟩ | ⟨_, ⟨⟩⟩)
    rfl
  · rintro rfl
    exact .inr ⟨e, rfl⟩

@[simp] theorem not_leaves_unfinished : ¬ (unfinished : Outcome α).Leaves t := by
  rintro (⟨_, ⟨⟩⟩ | ⟨_, ⟨⟩⟩)

end Outcome

/-! ### Watches that give no alarm -/

namespace Watched

variable {alarm : Run Unit} {k : Nat} {x : Run α} {s : State}

theorem check_apply {p : State → Prop} [DecidablePred p] (h : p s) :
    check alarm p s = .done () s :=
  if_pos h

theorem lower_apply (h : 0 < s.depth) : lower alarm s = .done () s.shallower := by
  have hcheck : check alarm (fun s => 0 < s.depth) s = .done () s := check_apply h
  rw [lower, Run.bind_apply, hcheck]
  rfl

/-- What keeps the count does the same under watch. -/
theorem watching_apply (hs : s.depth = k) (hx : ∀ t, (x s).Leaves t → t.depth = k) :
    watching alarm k x s = x s := by
  have hcheck {t : State} (ht : t.depth = k) :
      check alarm (fun s => s.depth = k) t = .done () t := check_apply ht
  rw [watching, Run.bind_apply, hcheck hs]
  change x.handle _ _ s = _
  unfold Run.handle
  cases h : x s with
  | done a t =>
    simp only [Run.bind_apply, hcheck (hx t (h ▸ Outcome.leaves_done.mpr rfl))]
    rfl
  | failed e t =>
    simp only [Run.bind_apply, hcheck (hx t (h ▸ Outcome.leaves_failed.mpr rfl))]
    rfl
  | unfinished => rfl

theorem leaving_apply (hx : ∀ t, (x s).Leaves t → 0 < t.depth) :
    leaving alarm x s = (x s).mapState State.shallower := by
  unfold leaving Run.handle
  cases h : x s with
  | done a t =>
    simp only [Run.bind_apply, lower_apply (hx t (h ▸ Outcome.leaves_done.mpr rfl))]
    rfl
  | failed e t =>
    simp only [Run.bind_apply, lower_apply (hx t (h ▸ Outcome.leaves_failed.mpr rfl))]
    rfl
  | unfinished => rfl

/-- While as many nested calls are under way as are counted, a call is refused at the limit, and
otherwise its body is run with one more. -/
theorem guarded_apply (hs : s.depth = k) :
    guarded alarm k x s =
      if s.limit ≤ k then .failed (.depthExceeded s.limit) s
      else leaving alarm (watching alarm (k + 1) x) s.deeper := by
  subst hs
  have hover : s.deeper.limit < s.deeper.depth ↔ s.limit ≤ s.depth := Nat.lt_succ_iff
  simp only [guarded, Run.bind_apply, Run.update_apply, Run.inspect_apply, Outcome.andThen]
  by_cases h : s.limit ≤ s.depth
  · have hcheck : check alarm (fun t => t.limit ≤ s.depth) s.deeper = .done () s.deeper :=
      check_apply h
    have hlower : lower alarm s.deeper = .done () s := lower_apply (Nat.succ_pos s.depth)
    rw [if_pos h, if_pos (decide_eq_true (hover.mpr h))]
    simp only [Run.bind_apply, hcheck, hlower, Outcome.andThen]
    rfl
  · have hlt : s.depth < s.limit := Nat.lt_of_not_le h
    have hcheck : check alarm (fun t => s.depth < t.limit ∧ t.depth ≤ t.limit) s.deeper =
        .done () s.deeper := check_apply ⟨hlt, hlt⟩
    rw [if_neg h, if_neg (by simpa using mt hover.mp h)]
    simp only [Run.bind_apply, hcheck, Outcome.andThen]

/-- A nested call whose body keeps the count is refused or run as it is without a watch. -/
theorem guarded_eq (hs : s.depth = k) (hx : ∀ t, (x s.deeper).Leaves t → t.depth = k + 1) :
    guarded alarm k x s = Run.guarded x s := by
  rw [guarded_apply hs]
  subst hs
  split
  next hlimit => exact (Run.guarded_of_limit_le x hlimit).symm
  next hlimit =>
    have hbody : watching alarm (s.depth + 1) x s.deeper = x s.deeper := watching_apply rfl hx
    rw [Run.guarded_eq_mapState x (Nat.lt_of_not_le hlimit), leaving_apply, hbody]
    intro t ht
    rw [hbody] at ht
    exact hx t ht ▸ Nat.succ_pos _

end Watched

/-! ### Runs that agree -/

namespace Run

/-- Under these counts the two runs do the same, and they leave the counts as they were. -/
structure AgreeAt (c : Counts) (x y : Run α) : Prop where
  eq : ∀ {s}, s.counts = c → x s = y s
  kept : ∀ {s t}, s.counts = c → (x s).Leaves t → t.counts = c

variable {c : Counts} {x y : Run α} {f g : α → Run β} {s t : State}

namespace AgreeAt

/-- Runs agree if each refines the other under these counts. -/
theorem of_refines (hle : Refines (Counts.fixed c) x y) (hge : Refines (Counts.fixed c) y x) :
    AgreeAt c x y := by
  have hboth {s : State} (hs : s.counts = c) : x s = y s ∧ ∀ t, (x s).Leaves t → t.counts = c := by
    subst hs
    have hxy : (x s).Refines (Counts.fixed s.counts) (y s) := hle s s.counts ⟨rfl, rfl⟩
    have hyx : (y s).Refines (Counts.fixed s.counts) (x s) := hge s s.counts ⟨rfl, rfl⟩
    generalize x s = o, y s = p at hxy hyx
    cases hxy with
    | unfinished =>
      cases hyx
      exact ⟨rfl, fun _ h => absurd h Outcome.not_leaves_unfinished⟩
    | @done a t d hd | @failed e t d hd =>
      obtain ⟨ht, rfl⟩ := hd
      rw [← ht]
      exact ⟨rfl, by simp⟩
  exact ⟨fun hs => (hboth hs).1, fun hs => (hboth hs).2 _⟩

theorem refines (h : AgreeAt c x y) : Refines (Counts.fixed c) x y := by
  rintro s d ⟨hs, rfl⟩
  have hkept : ∀ t, (x s).Leaves t → t.counts = s.counts := fun t ht =>
    (h.kept hs ht).trans hs.symm
  rw [← hs, State.withCounts_counts, ← h.eq hs]
  generalize x s = o at hkept
  cases o with
  | done a t =>
    have ht := hkept t (Outcome.leaves_done.mpr rfl)
    exact .done a (s := t) (c := t.counts) ⟨ht, ht⟩
  | failed e t =>
    have ht := hkept t (Outcome.leaves_failed.mpr rfl)
    exact .failed e (s := t) (c := t.counts) ⟨ht, ht⟩
  | unfinished => exact .unfinished _

theorem symm (h : AgreeAt c x y) : AgreeAt c y x where
  eq hs := (h.eq hs).symm
  kept hs ht := h.kept hs (h.eq hs ▸ ht)

theorem right (h : AgreeAt c x y) : AgreeAt c y y where
  eq _ := rfl
  kept := h.symm.kept

theorem pure (a : α) : AgreeAt c (Pure.pure a : Run α) (Pure.pure a) :=
  .of_refines (.pure a) (.pure a)

theorem raise (e : Error) : AgreeAt c (Run.raise e : Run α) (Run.raise e) :=
  .of_refines (.raise e) (.raise e)

theorem unfinished : AgreeAt c (Run.unfinished : Run α) Run.unfinished :=
  .of_refines (.unfinished _) (.unfinished _)

theorem ofExcept (x : Except Error α) : AgreeAt c (Run.ofExcept x) (Run.ofExcept x) :=
  .of_refines (.ofExcept x) (.ofExcept x)

theorem bind (h : AgreeAt c x y) (k : ∀ a, AgreeAt c (f a) (g a)) :
    AgreeAt c (x >>= f) (y >>= g) :=
  .of_refines (h.refines.bind fun a => (k a).refines)
    (h.symm.refines.bind fun a => (k a).symm.refines)

theorem map (h : AgreeAt c x y) (f : α → β) : AgreeAt c (f <$> x) (f <$> y) := by
  simp only [map_eq_pure_bind]
  exact h.bind fun a => .pure (f a)

/-- What keeps the counts agrees with itself under watch. -/
theorem watching {alarm : Run Unit} (h : AgreeAt c x x) :
    AgreeAt c (Watched.watching alarm c.depth x) x := by
  have heq {s : State} (hs : s.counts = c) : Watched.watching alarm c.depth x s = x s :=
    Watched.watching_apply (congrArg Counts.depth hs) fun t ht =>
      congrArg Counts.depth (h.kept hs ht)
  exact ⟨heq, fun hs ht => h.kept hs (heq hs ▸ ht)⟩

/-- A nested call under watch agrees with the call itself if their bodies agree one level further
in. -/
theorem guarded {alarm : Run Unit} (h : AgreeAt ⟨c.depth + 1, c.limit⟩ x y) :
    AgreeAt c (Watched.guarded alarm c.depth x) (Run.guarded y) := by
  have hself : Refines (Counts.fixed c) (Run.guarded x) (Run.guarded y) :=
    h.refines.guarded_fixed
  have hplain : AgreeAt c (Run.guarded x) (Run.guarded y) :=
    .of_refines hself h.symm.refines.guarded_fixed
  have heq {s : State} (hs : s.counts = c) :
      Watched.guarded alarm c.depth x s = Run.guarded x s := by
    subst hs
    exact Watched.guarded_eq rfl fun t ht => congrArg Counts.depth (h.kept (s := s.deeper) rfl ht)
  exact ⟨fun hs => (heq hs).trans (hplain.eq hs), fun hs ht => hplain.kept hs (heq hs ▸ ht)⟩

end AgreeAt

end Run

end Lisp
