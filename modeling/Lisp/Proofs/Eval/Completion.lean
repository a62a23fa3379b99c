import Lisp.Proofs.Eval.Counts
import Lisp.Proofs.Eval.Unbounded
import Lisp.Proofs.Run.Endings

/-!
# Runs in which no nested call is refused

What makes nested calls takes them as a parameter, together with fuel. `Completes x s o` says that
`x` ends in `o` with the nested calls that are made when a program is run, and that none of them is
refused. As with evaluation itself, this does not depend on how deep `x` is nested, as long as the
levels suffice (`Completes.shallower`), and it can be found part by part (`completes_bind_iff`).
-/

namespace Lisp

open Run Policy

/-! ### One level further out -/

section Shifted

variable {α : Type} {a b : Nat} {x y : Run α}

/-- Where fewer calls are under way a call is refused only if it is refused where there are more. -/
theorem stopping_guard_shifted (hab : b ≤ a) (h : Refines (Counts.shifted (a + 1) (b + 1)) x y) :
    Refines (Counts.shifted a b) (stopping.guard x) (stopping.guard y) := by
  rintro s c ⟨ha, hb, hlimit⟩
  by_cases hs : s.depth < s.limit
  · have hc : (s.withCounts c).depth < (s.withCounts c).limit := by
      change c.depth < c.limit
      rw [hb, hlimit]
      exact Nat.lt_of_le_of_lt hab (ha ▸ hs)
    rw [guard_of_depth_lt _ x hs, guard_of_depth_lt _ y hc]
    exact counted_refines_shifted h s c ⟨ha, hb, hlimit⟩
  · rw [show stopping.guard x s = .unfinished from if_pos (Nat.not_lt.mp hs)]
    exact .unfinished _

theorem stopping_confined_shifted (hab : b ≤ a) {f : Nat → Nat → Except Error α} {enough : Nat}
    (hf : Levelled f enough) :
    Refines (Counts.shifted a b) (stopping.confined f enough) (stopping.confined f enough) := by
  rintro s c ⟨ha, hb, hlimit⟩
  by_cases hr : Refused (f s.limit s.depth)
  · obtain ⟨limit, hr⟩ := hr
    have hstop : stopping.confined f enough s = .unfinished := by simp only [Policy.confined, hr]
    rw [hstop]
    exact .unfinished _
  · have hle : s.limit - s.depth ≤ (s.withCounts c).limit - (s.withCounts c).depth := by
      change s.limit - s.depth ≤ c.limit - c.depth
      rw [hb, hlimit]
      exact Nat.sub_le_sub_left (Nat.le_trans hab (Nat.le_of_eq ha.symm)) _
    rw [confined_of_not_refused stopping hf hr (Nat.le_refl _),
      confined_of_not_refused stopping hf hr hle]
    exact Refines.ofExcept _ s c ⟨ha, hb, hlimit⟩

end Shifted

theorem trampoline_refines_shifted {a b : Nat} (hab : b ≤ a) (n : Nat) (form : Value)
    (scope : Scope) :
    Refines (Counts.shifted a b) (stopping.trampoline n form scope)
      (stopping.trampoline n form scope) := by
  induction n generalizing a b form scope with
  | zero => exact .unfinished _
  | succ n ih =>
    have hdeeper : b + 1 ≤ a + 1 := Nat.succ_le_succ hab
    have hcalls : (stopping.calls (stopping.trampoline n)).Refines (Counts.shifted (a + 1) (b + 1))
        (stopping.calls (stopping.trampoline n)) :=
      ⟨ih hdeeper, fun text => stopping_confined_shifted hdeeper (levelled_readFirst text),
        fun v => stopping_confined_shifted hdeeper (Template.levelled_expand v)⟩
    exact stopping_guard_shifted hab
      (Eval.loop_refines hcalls (Nat.le_refl n) (Nat.le_refl n) form scope)

/-! ### Runs with nested calls -/

/-- The nested calls of a run that stops where one of them is refused. -/
def NestedCalls.stopping (n : Nat) : NestedCalls :=
  Policy.stopping.calls (Policy.stopping.trampoline n)

theorem NestedCalls.stopping_refines_limited {n m : Nat} (h : n ≤ m) :
    (NestedCalls.stopping n).Refines Counts.same (.limited m) := by
  have hle : Le Counts.same Policy.stopping Policy.failing := stopping_le Counts.raises_same _
  have hcalls := hle.calls (trampoline_refines_of_le hle h)
  rw [trampoline_failing] at hcalls
  exact hcalls

theorem NestedCalls.stopping_refines {n m : Nat} (h : n ≤ m) :
    (NestedCalls.stopping n).Refines Counts.same (.stopping m) := by
  have hle : Le Counts.same Policy.stopping Policy.stopping := stopping_le Counts.raises_same _
  exact hle.calls (trampoline_refines_of_le hle h)

theorem NestedCalls.stopping_refines_shifted {a b : Nat} (hab : b ≤ a) (n : Nat) :
    (NestedCalls.stopping n).Refines (Counts.shifted a b) (.stopping n) where
  eval := trampoline_refines_shifted hab n
  read text := stopping_confined_shifted hab (levelled_readFirst text)
  template v := stopping_confined_shifted hab (Template.levelled_expand v)

/-- A run that is given nested calls and fuel. -/
abbrev Fueled (α : Type) :=
  NestedCalls → Nat → Run α

variable {α β : Type} {x y : Fueled α} {s t : State} {o o' : Outcome α}

/-- The run refines along with its nested calls and with its fuel. -/
structure Fueled.Refining (x : Fueled α) : Prop where
  refines : ∀ {R : Counts → Counts → Prop} {a b : NestedCalls} {n m : Nat}, a.Refines R b → n ≤ m →
    Run.Refines R (x a n) (x b m)

/-- The run ends in `o`, and no nested call is refused on the way. -/
def Completes (x : Fueled α) (s : State) (o : Outcome α) : Prop :=
  o ≠ .unfinished ∧ ∃ n, x (.limited n) n s = o ∧ x (.stopping n) n s ≠ .unfinished

namespace Fueled.Refining

theorem growing_stopping (hx : Refining x) : Growing fun n => x (.stopping n) n :=
  fun _ _ h => hx.refines (NestedCalls.stopping_refines h) h

theorem const {x : Run α} (hx : ∀ R, Run.Refines R x x) : Refining fun _ _ => x :=
  ⟨fun _ _ => hx _⟩

theorem bind {f : α → Fueled β} (hx : Refining x) (hf : ∀ a, Refining (f a)) :
    Refining fun nested n => x nested n >>= fun a => f a nested n :=
  ⟨fun h hnm => (hx.refines h hnm).bind fun a => (hf a).refines h hnm⟩

/-- An evaluation, as one more nested call. -/
theorem eval (form : Value) (scope : Scope) : Refining fun nested _ => nested.eval form scope :=
  ⟨fun h _ => h.eval form scope⟩

theorem loop (form : Value) (scope : Scope) :
    Refining fun nested n => Eval.loop nested n n form scope :=
  ⟨fun h hnm => Eval.loop_refines h hnm hnm form scope⟩

theorem expand (form : Value) (scope : Scope) :
    Refining fun nested n => Eval.expand nested n form scope :=
  ⟨fun h hnm => Eval.expand_refines h hnm form scope⟩

theorem apply (f : Value) (args : List Value) :
    Refining fun nested n => Eval.apply nested n f args :=
  ⟨fun h hnm => Eval.apply_refines h hnm f args⟩

theorem enterClosure (params : Params) (scope : Scope) (args : List Value) :
    Refining fun _ _ => Eval.enterClosure params scope args :=
  const fun _ => Eval.enterClosure_refines params scope args

end Fueled.Refining

open Fueled (Refining)

/-- A run that is stopped where a nested call is refused ends the way it does when it is not. -/
theorem completes_iff_ends (hx : Refining x) :
    Completes x s o ↔ Ends (fun n => x (.stopping n) n) s o := by
  have heq {n : Nat} (h : x (.stopping n) n s ≠ .unfinished) :
      x (.limited n) n s = x (.stopping n) n s :=
    (hx.refines (NestedCalls.stopping_refines_limited (Nat.le_refl n)) (Nat.le_refl n)).apply_eq h
  constructor
  · rintro ⟨ho, n, hn, hstop⟩
    exact ⟨ho, n, (heq hstop).symm.trans hn⟩
  · rintro ⟨ho, n, rfl⟩
    exact ⟨ho, n, heq ho, ho⟩

namespace Completes

theorem ends (h : Completes x s o) : Ends (fun n => x (.limited n) n) s o := by
  obtain ⟨ho, n, hn, -⟩ := h
  exact ⟨ho, n, hn⟩

theorem unique (hx : Refining x) (h : Completes x s o) (h' : Completes x s o') : o = o' :=
  ((completes_iff_ends hx).mp h).unique hx.growing_stopping ((completes_iff_ends hx).mp h')

/-- What completes, completes alike in runs that are refined. -/
theorem of_refines (hx : Refining x) (hy : Refining y)
    (hxy : ∀ n, ∃ m, Run.Refines Counts.same (x (.stopping n) n) (y (.stopping m) m))
    (h : Completes x s o) : Completes y s o :=
  (completes_iff_ends hy).mpr (((completes_iff_ends hx).mp h).of_refines hxy)

/-- As many nested calls are under way behind a run as before it. -/
theorem counts_eq {a : α} (hx : Refining x) (h : Completes x s (.done a t)) :
    t.counts = s.counts := by
  obtain ⟨-, n, hn, -⟩ := h
  exact (hx.refines (limited_refines_fixed n s.counts) (Nat.le_refl n)).counts_done hn

/-- A run in which no nested call is refused is the same one level further out. -/
theorem shallower (hx : Refining x) (h : Completes x s.deeper o) :
    Completes x s (o.mapState State.shallower) := by
  obtain ⟨ho, n, rfl⟩ := (completes_iff_ends hx).mp h
  have hout : (x (.stopping n) n s.deeper).Refines (Counts.shifted (s.depth + 1) s.depth)
      (x (.stopping n) n s) :=
    hx.refines (NestedCalls.stopping_refines_shifted (Nat.le_succ _) n) (Nat.le_refl n) s.deeper
      s.counts ⟨rfl, rfl, rfl⟩
  have hend : Ends (fun n => x (.stopping n) n) s
      ((x (.stopping n) n s.deeper).mapState State.shallower) :=
    ⟨Outcome.mapState_ne_unfinished ho, n, hout.eq_of_shifted ho⟩
  exact (completes_iff_ends hx).mpr hend

end Completes

section Evaluation

variable {form : Value} {scope : Scope} {o o' : Outcome Value}

/-- An evaluation in which no call is refused is the same one level further out. -/
theorem Evaluates.shallower (h : Evaluates form scope s.deeper o) :
    Evaluates form scope s (o.mapState State.shallower) :=
  Completes.shallower (.eval form scope) h

/-- A form evaluates to one outcome at most. -/
theorem Evaluates.unique (h : Evaluates form scope s o) (h' : Evaluates form scope s o') : o = o' :=
  Completes.unique (.eval form scope) h h'

theorem Evaluates.counts_eq {v : Value} (h : Evaluates form scope s (.done v t)) :
    t.counts = s.counts :=
  Completes.counts_eq (.eval form scope) h

theorem Evaluates.ends (h : Evaluates form scope s o) : Ends (fun n => eval n form scope) s o :=
  Completes.ends (x := fun nested _ => nested.eval form scope) h

end Evaluation

/-- It does not matter which fuel a run begins with. -/
theorem completes_succ_iff (hx : Refining x) :
    Completes (fun nested n => x nested (n + 1)) s o ↔ Completes x s o := by
  have hsucc : Refining fun nested n => x nested (n + 1) :=
    ⟨fun h hnm => hx.refines h (Nat.succ_le_succ hnm)⟩
  constructor
  · exact .of_refines hsucc hx fun n => ⟨n + 1,
      hx.refines (NestedCalls.stopping_refines (Nat.le_succ n)) (Nat.le_refl _)⟩
  · exact .of_refines hx hsucc fun n => ⟨n,
      hx.refines (NestedCalls.stopping_refines (Nat.le_refl n)) (Nat.le_succ n)⟩

/-- Runs complete alike from a state in which they are the same, up to one unit of fuel. -/
theorem completes_congr_succ (hx : Refining x)
    (h : ∀ nested n, x nested (n + 1) s = y nested n s) : Completes x s o ↔ Completes y s o := by
  rw [← completes_succ_iff hx]
  simp only [Completes, h]

/-- Runs complete alike from a state in which they are the same with some fuel. -/
theorem completes_congr (hx : Refining x) (hy : Refining y)
    (h : ∀ nested n, x nested (n + 1) s = y nested (n + 1) s) :
    Completes x s o ↔ Completes y s o :=
  (completes_congr_succ hx h).trans (completes_succ_iff hy)

/-- What is done in turn completes if its parts do. -/
theorem completes_bind_iff {f : α → Fueled β} {p : Outcome β} (hx : Refining x)
    (hf : ∀ a, Refining (f a)) :
    Completes (fun nested n => x nested n >>= fun a => f a nested n) s p ↔
      ∃ o, Completes x s o ∧ o.Leads (fun a t => Completes (f a) t) p := by
  rw [completes_iff_ends (hx.bind hf)]
  refine (ends_bind_iff hx.growing_stopping fun a => (hf a).growing_stopping).trans ?_
  refine exists_congr fun o => and_congr (completes_iff_ends hx).symm ?_
  cases o with
  | done a t => exact (completes_iff_ends (hf a)).symm
  | failed | unfinished => exact Iff.rfl

/-- What needs no nested calls completes in whatever it ends in. -/
theorem completes_const_iff {x : Run α} : Completes (fun _ _ => x) s o ↔
    o ≠ .unfinished ∧ x s = o := by
  constructor
  · rintro ⟨ho, _, h, -⟩
    exact ⟨ho, h⟩
  · rintro ⟨ho, rfl⟩
    exact ⟨ho, 0, rfl, ho⟩

/-- What is collected from the elements of a list, newest first, comes of each of them in turn. -/
theorem completes_each_iff {γ : Type} {x : α → Fueled β} {collect : List β → List α → Fueled γ}
    (finish : List β → γ) (hx : ∀ a, Refining (x a)) (hcollect : ∀ bs as, Refining (collect bs as))
    (hnil : ∀ bs, collect bs [] = fun _ _ => pure (finish bs.reverse))
    (hcons : ∀ bs a as, collect bs (a :: as) =
      fun nested n => x a nested n >>= fun b => collect (b :: bs) as nested n)
    {bs : List β} {as : List α} {p : Outcome γ} :
    Completes (collect bs as) s p ↔ ∃ q, Each (fun a => Completes (x a)) as s q ∧
      p = q.andThen fun cs t => .done (finish (bs.reverse ++ cs)) t := by
  induction as generalizing bs s with
  | nil =>
    rw [hnil, completes_const_iff]
    constructor
    · rintro ⟨-, rfl⟩
      exact ⟨_, .nil, by simp only [pure_apply, Outcome.andThen, List.append_nil]⟩
    · rintro ⟨q, hq, rfl⟩
      cases hq
      refine ⟨Outcome.done_ne_unfinished _ _, ?_⟩
      simp only [pure_apply, Outcome.andThen, List.append_nil]
  | cons a as ih =>
    rw [hcons, completes_bind_iff (hx a) fun b => hcollect (b :: bs) as]
    constructor
    · rintro ⟨o, ho, hlead⟩
      cases o with
      | done b t =>
        obtain ⟨q, hq, rfl⟩ := ih.mp hlead
        refine ⟨_, .cons ho hq, ?_⟩
        cases q <;> simp only [Outcome.andThen, List.reverse_cons, List.append_assoc,
          List.singleton_append]
      | failed e t => exact ⟨_, .failed ho, hlead⟩
      | unfinished => exact hlead.elim
    · rintro ⟨q, hq, rfl⟩
      cases hq with
      | @cons _ b _ _ t q hb hq =>
        refine ⟨_, hb, ih.mpr ⟨q, hq, ?_⟩⟩
        cases q <;> simp only [Outcome.andThen, List.reverse_cons, List.append_assoc,
          List.singleton_append]
      | failed he => exact ⟨_, he, rfl⟩

theorem State.counts_shallower (h : t.counts = s.deeper.counts) : t.shallower.counts = s.counts :=
  congrArg (fun c : Counts => (⟨c.depth - 1, c.limit⟩ : Counts)) h

theorem State.deeper_shallower (h : t.counts = s.deeper.counts) : t.shallower.deeper = t := by
  have hdepth : t.depth = s.depth + 1 := congrArg Counts.depth h
  rw [State.deeper, State.shallower, hdepth, Nat.add_sub_cancel, ← hdepth]

/-- Evaluating a form is a loop of steps one level further in. -/
theorem evaluates_iff {form : Value} {scope : Scope} {o : Outcome Value} :
    Evaluates form scope s o ↔ s.depth < s.limit ∧
      ∃ p, Completes (fun nested n => Eval.loop nested n n form scope) s.deeper p ∧
        o = p.mapState State.shallower := by
  have hloop := Refining.loop form scope
  constructor
  · rintro ⟨ho, n, hn, hstop⟩
    rw [eval_eq_stopping hstop] at hn
    cases n with
    | zero => exact absurd hn.symm ho
    | succ n =>
      have hs : s.depth < s.limit := by
        by_contra hs
        exact hstop (if_pos (Nat.not_lt.mp hs))
      have hcounted : stopping.trampoline (n + 1) form scope s =
          (Eval.loop (.stopping n) n n form scope s.deeper).mapState State.shallower :=
        guard_of_depth_lt stopping _ hs
      rw [hcounted] at hn
      have hend : Ends (fun n => Eval.loop (.stopping n) n n form scope) s.deeper
          (Eval.loop (.stopping n) n n form scope s.deeper) :=
        ⟨Outcome.ne_unfinished_of_mapState (hn ▸ ho), n, rfl⟩
      exact ⟨hs, _, (completes_iff_ends hloop).mpr hend, hn.symm⟩
  · rintro ⟨hs, p, hp, rfl⟩
    obtain ⟨hp, n, rfl⟩ := (completes_iff_ends hloop).mp hp
    exact .of_stopping (n := n + 1) (guard_of_depth_lt stopping _ hs)
      (Outcome.mapState_ne_unfinished hp)

/-- What a form evaluates to under a higher limit without changing the state, it evaluates to under
the limit of the state as well, if it evaluates to anything there. -/
theorem Evaluates.eq_of_raised {form : Value} {scope : Scope} {o : Outcome Value} {l : Nat}
    {r : Except Error Value} (h : Evaluates form scope s o) (hl : s.limit ≤ l)
    (hr : Evaluates form scope { s with limit := l } (ofExcept r { s with limit := l })) :
    o = ofExcept r s := by
  have hraised : o.mapState (fun t => { t with limit := l }) = ofExcept r { s with limit := l } :=
    (h.raise_limit hl).unique hr
  have hstate {t : State} (ht : t.counts = s.counts)
      (hts : ({ t with limit := l } : State) = { s with limit := l }) : t = s :=
    calc t = { ({ t with limit := l } : State) with limit := t.limit } := rfl
      _ = { ({ s with limit := l } : State) with limit := s.limit } := by
        rw [hts, show t.limit = s.limit from congrArg Counts.limit ht]
      _ = s := rfl
  obtain ⟨-, n, rfl, -⟩ := h
  have hself : (eval n form scope s).Refines (Counts.fixed s.counts) (eval n form scope s) :=
    eval_refines_fixed n s.counts form scope s s.counts ⟨rfl, rfl⟩
  obtain ⟨p, hp⟩ : ∃ p, (eval n form scope s).Refines (Counts.fixed s.counts) p := ⟨_, hself⟩
  generalize eval n form scope s = o at hraised hp
  cases hp with
  | unfinished => cases r <;> cases hraised
  | done v hd =>
    cases r with
    | ok w =>
      obtain ⟨rfl, hts⟩ := Outcome.done.inj hraised
      exact congrArg _ (hstate hd.1 hts)
    | error e => cases hraised
  | failed e hd =>
    cases r with
    | ok w => cases hraised
    | error e' =>
      obtain ⟨rfl, hts⟩ := Outcome.failed.inj hraised
      exact congrArg _ (hstate hd.1 hts)

/-- Evaluating behind a run is a loop of steps behind the same run one level further in. -/
theorem leads_evaluates_iff {q : Outcome α} (form : α → Value) (scope : α → Scope)
    {o : Outcome Value} (hs : s.depth < s.limit)
    (hq : ∀ a t, q = .done a t → t.counts = s.deeper.counts) :
    (q.mapState State.shallower).Leads (fun a => Evaluates (form a) (scope a)) o ↔
      ∃ p, q.Leads (fun a => Completes fun nested n => Eval.loop nested n n (form a) (scope a)) p ∧
        o = p.mapState State.shallower := by
  cases q with
  | done a t =>
    have ht : t.counts = s.deeper.counts := hq a t rfl
    have hout : t.shallower.counts = s.counts := State.counts_shallower ht
    have hdepth : t.shallower.depth = s.depth := congrArg Counts.depth hout
    have hlimit : t.shallower.limit = s.limit := congrArg Counts.limit hout
    have hlt : t.shallower.depth < t.shallower.limit := by rw [hdepth, hlimit]; exact hs
    refine evaluates_iff.trans ?_
    rw [State.deeper_shallower ht]
    exact and_iff_right hlt
  | failed e t => exact ⟨fun h => ⟨_, rfl, h⟩, fun ⟨_, hp, ho⟩ => by rw [ho, hp]; rfl⟩
  | unfinished => exact ⟨False.elim, fun ⟨_, hp, _⟩ => hp⟩

/-- A form that takes the place of another behind a run evaluates as it does on its own. -/
theorem tail_evaluates_iff {x : Fueled α} (hx : Refining x) (form : α → Value) (scope : α → Scope)
    {o : Outcome Value} (hs : s.depth < s.limit) :
    (∃ p, Completes (fun nested n => x nested n >>= fun a =>
        Eval.loop nested n n (form a) (scope a)) s.deeper p ∧ o = p.mapState State.shallower) ↔
      ∃ q, Completes x s.deeper q ∧
        (q.mapState State.shallower).Leads (fun a => Evaluates (form a) (scope a)) o := by
  have hloop (a : α) := Refining.loop (form a) (scope a)
  have hleads (q : Outcome α) (hq : Completes x s.deeper q) := leads_evaluates_iff
    (q := q) form scope (o := o) hs fun a t hqa => (hqa ▸ hq).counts_eq hx
  constructor
  · rintro ⟨p, hp, rfl⟩
    obtain ⟨q, hq, hlead⟩ := (completes_bind_iff hx hloop).mp hp
    exact ⟨q, hq, (hleads q hq).mpr ⟨p, hlead, rfl⟩⟩
  · rintro ⟨q, hq, hlead⟩
    obtain ⟨p, hp, rfl⟩ := (hleads q hq).mp hlead
    exact ⟨p, (completes_bind_iff hx hloop).mpr ⟨q, hq, hp⟩, rfl⟩

end Lisp
