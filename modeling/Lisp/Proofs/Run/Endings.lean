import Lisp.Proofs.Run.Eventually

/-!
# How runs end that are done in turn

With fuel enough a run ends in one way at most, and what is done in turn ends in whatever the first
part leads to: `o.Leads K p` says that `p` comes of `o` if `K` says what comes of a value, while an
error comes of itself.
-/

namespace Lisp

open Run

variable {α β : Type}

/-- What comes of an outcome, if `K` says what comes of a value and the state behind it. -/
def Outcome.Leads (o : Outcome α) (K : α → State → Outcome β → Prop) (p : Outcome β) : Prop :=
  match o with
  | .done a s => K a s p
  | .failed e s => p = .failed e s
  | .unfinished => False

theorem Outcome.Leads.mono {o : Outcome α} {K L : α → State → Outcome β → Prop} {p : Outcome β}
    (h : o.Leads K p) (hKL : ∀ a s, o = .done a s → K a s p → L a s p) : o.Leads L p := by
  cases o with
  | done a s => exact hKL a s rfl h
  | failed e s => exact h
  | unfinished => exact h

theorem Outcome.Leads.ne_unfinished {o : Outcome α} {K : α → State → Outcome β → Prop}
    {p : Outcome β} (h : o.Leads K p) : o ≠ .unfinished := by
  rintro rfl
  exact h

theorem Outcome.done_ne_unfinished (a : α) (s : State) : Outcome.done a s ≠ .unfinished := by
  intro h
  cases h

theorem Outcome.failed_ne_unfinished (e : Error) (s : State) :
    (.failed e s : Outcome α) ≠ .unfinished := by
  intro h
  cases h

theorem Outcome.ofExcept_ne_unfinished (r : Except Error α) (s : State) :
    Run.ofExcept r s ≠ .unfinished := by
  intro h
  cases r <;> cases h

/-- An outcome is unfinished on one level if it is on another. -/
theorem Outcome.mapState_ne_unfinished {o : Outcome α} {f : State → State}
    (h : o ≠ .unfinished) : o.mapState f ≠ .unfinished := by
  cases o with
  | unfinished => exact absurd rfl h
  | done | failed => exact nofun

/-- What comes of a list if `K` says what comes of each element in turn: the list of the values, or
the first error, behind which nothing is done any more. -/
inductive Each (K : α → State → Outcome β → Prop) : List α → State → Outcome (List β) → Prop
  | nil {s : State} : Each K [] s (.done [] s)
  | cons {a : α} {b : β} {as : List α} {s t : State} {q : Outcome (List β)} :
    K a s (.done b t) → Each K as t q → Each K (a :: as) s (q.andThen fun bs u => .done (b :: bs) u)
  | failed {a : α} {as : List α} {e : Error} {s t : State} :
    K a s (.failed e t) → Each K (a :: as) s (.failed e t)

section Each

variable {K : α → State → Outcome β → Prop} {a : α} {b : β} {as : List α} {bs : List β}
  {s t u : State}

theorem Each.done_cons (h : K a s (.done b t)) (hs : Each K as t (.done bs u)) :
    Each K (a :: as) s (.done (b :: bs) u) :=
  .cons h hs

theorem Each.failed_cons {e : Error} (h : K a s (.done b t)) (hs : Each K as t (.failed e u)) :
    Each K (a :: as) s (.failed e u) :=
  .cons h hs

theorem each_cons_done_iff :
    Each K (a :: as) s (.done bs t) ↔
      ∃ b cs u, bs = b :: cs ∧ K a s (.done b u) ∧ Each K as u (.done cs t) := by
  constructor
  · intro h
    generalize ho : Outcome.done bs t = o at h
    cases h with
    | @cons _ b _ _ u q ha has =>
      cases q with
      | done cs v =>
        cases ho
        exact ⟨b, cs, u, rfl, ha, has⟩
      | _ => cases ho
    | failed => cases ho
  · rintro ⟨b, cs, u, rfl, ha, has⟩
    exact Each.done_cons ha has

theorem Each.length_eq (h : Each K as s (.done bs t)) : bs.length = as.length := by
  induction as generalizing s bs with
  | nil =>
    cases h
    rfl
  | cons a as ih =>
    obtain ⟨b, cs, u, rfl, -, has⟩ := each_cons_done_iff.mp h
    exact congrArg (· + 1) (ih has)

end Each

section Ends

variable {x : Nat → Run α} {y : Nat → Run β} {f : Nat → α → Run β} {s : State} {o o' : Outcome α}
  {p : Outcome β}

theorem ends_iff_eventually (hx : Growing x) :
    Ends x s o ↔ o ≠ .unfinished ∧ eventually x s = o := by
  refine ⟨fun h => ⟨h.1, hx.eventually_eq_of_ends h⟩, fun ⟨ho, h⟩ => ?_⟩
  obtain ⟨n, hn⟩ := hx.exists_eq s
  exact ⟨ho, n, (hn n (Nat.le_refl n)).trans h⟩

/-- With fuel enough a run ends in one way. -/
theorem Ends.unique (hx : Growing x) (h : Ends x s o) (h' : Ends x s o') : o = o' :=
  (hx.eventually_eq_of_ends h).symm.trans (hx.eventually_eq_of_ends h')

/-- What ends, ends alike in runs that are refined. -/
theorem Ends.of_refines {x' : Nat → Run α} (h : Ends x s o)
    (hxx' : ∀ n, ∃ m, Refines Counts.same (x n) (x' m)) : Ends x' s o := by
  obtain ⟨ho, n, rfl⟩ := h
  obtain ⟨m, hm⟩ := hxx' n
  exact ⟨ho, m, hm.apply_eq ho⟩

/-- What is done in turn ends in what the outcome of the first part leads to. -/
theorem ends_bind_iff (hx : Growing x) (hf : ∀ a, Growing fun n => f n a) :
    Ends (fun n => x n >>= f n) s p ↔
      ∃ o, Ends x s o ∧ o.Leads (fun a t => Ends (fun n => f n a) t) p := by
  rw [ends_iff_eventually (hx.bind hf), hx.eventually_bind hf, bind_apply]
  constructor
  · rintro ⟨hp, h⟩
    rcases hout : eventually x s with ⟨a, t⟩ | ⟨e, t⟩ | _
    · rw [hout] at h
      have hend : Ends x s (.done a t) := (ends_iff_eventually hx).mpr ⟨nofun, hout⟩
      exact ⟨_, hend, (ends_iff_eventually (hf a)).mpr ⟨hp, h⟩⟩
    · rw [hout] at h
      have hend : Ends x s (.failed e t) := (ends_iff_eventually hx).mpr ⟨nofun, hout⟩
      exact ⟨_, hend, h.symm⟩
    · rw [hout] at h
      exact absurd h.symm hp
  · rintro ⟨o, hxo, hlead⟩
    rw [hx.eventually_eq_of_ends hxo]
    cases o with
    | done a t => exact (ends_iff_eventually (hf a)).mp hlead
    | failed e t =>
      cases hlead
      exact ⟨nofun, rfl⟩
    | unfinished => exact hlead.elim

/-- What is made of a value ends in what is made of the value that comes out. -/
theorem ends_map_iff {f : α → β} :
    Ends (fun n => f <$> x n) s p ↔
      ∃ o, Ends x s o ∧ p = o.andThen fun a t => .done (f a) t := by
  have hmap (n : Nat) : (f <$> x n) s = (x n s).andThen fun a t => .done (f a) t := by
    rw [← bind_pure_comp]
    rfl
  constructor
  · rintro ⟨hp, n, hn⟩
    have hn : p = (x n s).andThen fun a t => .done (f a) t := hn.symm.trans (hmap n)
    refine ⟨x n s, ⟨fun ho => hp ?_, n, rfl⟩, hn⟩
    rw [hn, ho]
    rfl
  · rintro ⟨o, ⟨ho, n, rfl⟩, rfl⟩
    refine ⟨?_, n, hmap n⟩
    cases h : x n s with
    | done | failed => exact nofun
    | unfinished => exact absurd h ho

end Ends

end Lisp
