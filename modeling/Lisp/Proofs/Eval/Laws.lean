import Lisp.Proofs.Eval.Calls
import Lisp.Proofs.Eval.Levels

/-!
# What forms evaluate to

The value of a form in terms of the values of its parts, as long as no nested call is refused: a
form is evaluated by a loop that begins with one step, and what the step does depends on the shape
of the form. The part of a form that is in tail position evaluates as if it stood in its place.
-/

namespace Lisp

open Run Eval

open Fueled (Refining)

variable {form : Value} {scope : Scope} {s : State} {o p : Outcome Value}

/-! ### The first step -/

namespace Fueled.Refining

theorem step (form : Value) (scope : Scope) :
    Refining fun nested n => Eval.step nested n form scope :=
  ⟨fun h hnm => Eval.step_refines h hnm form scope⟩

theorem evalEach (scope : Scope) (done forms : List Value) :
    Refining fun nested _ => Eval.evalEach nested scope done forms :=
  ⟨fun h _ => Eval.evalEach_refines h scope done forms⟩

theorem invoke (f : Value) (args : List Value) :
    Refining fun nested n => Eval.invoke nested n f args >>= Step.proceed (Eval.loop nested n n) :=
  bind ⟨fun h hnm => Eval.invoke_refines h hnm f args⟩ proceed

end Fueled.Refining

section Refines

variable {calls : Nat → NestedCalls}
  (hcalls : ∀ {n m}, n ≤ m → (calls n).Refines Counts.same (calls m))
include hcalls

/-- A loop takes a step and goes on with what that leads to. -/
theorem loop_refines_step (n : Nat) :
    Refines Counts.same (loop (calls n) n n form scope)
      (Eval.step (calls n) n form scope >>= Step.proceed (loop (calls n) n n)) := by
  have hsame := hcalls (Nat.le_refl n)
  cases n with
  | zero => exact .unfinished _
  | succ n =>
    rw [loop_succ]
    refine (Eval.step_refines hsame (Nat.le_refl _) form scope).bind ?_
    exact proceed_refines hsame (Nat.le_refl _) (Nat.le_succ n)

/-- A step takes one unit of fuel of the loop that it is the first of. -/
theorem step_refines_loop (n : Nat) :
    Refines Counts.same (Eval.step (calls n) n form scope >>= Step.proceed (loop (calls n) n n))
      (loop (calls (n + 1)) (n + 1) (n + 1) form scope) := by
  have hmore := hcalls (Nat.le_succ n)
  rw [loop_succ]
  refine (Eval.step_refines hmore (Nat.le_succ n) form scope).bind ?_
  exact proceed_refines hmore (Nat.le_succ n) (Nat.le_refl n)

end Refines

/-- A loop takes a step and goes on with what that leads to. -/
theorem completes_loop_iff :
    Completes (fun nested n => loop nested n n form scope) s p ↔
      Completes (fun nested n => Eval.step nested n form scope >>= Step.proceed (loop nested n n))
        s p := by
  have hloop := Refining.loop form scope
  have hstep := (Refining.step form scope).bind Refining.proceed
  constructor
  · exact .of_refines hloop hstep fun n => ⟨n, loop_refines_step NestedCalls.stopping_refines n⟩
  · exact .of_refines hstep hloop fun n =>
      ⟨n + 1, step_refines_loop NestedCalls.stopping_refines n⟩

/-- Evaluating a form is taking its step, and running what that leads to, one level further in. -/
theorem evaluates_iff_step {x : Fueled Value} (hx : Refining x)
    (hstep : ∀ nested n, (Eval.step nested (n + 1) form scope >>=
      Step.proceed (loop nested (n + 1) (n + 1))) s.deeper = x nested (n + 1) s.deeper) :
    Evaluates form scope s o ↔
      s.depth < s.limit ∧ ∃ p, Completes x s.deeper p ∧ o = p.mapState State.shallower := by
  have hform := (Refining.step form scope).bind Refining.proceed
  simp only [evaluates_iff, completes_loop_iff, completes_congr hform hx hstep]

/-! ### Forms that are no calls -/

/-- A form that is no call evaluates to a value that its rule finds without changing anything. -/
theorem evaluates_plain {v : Value} (hs : s.depth < s.limit) (hform : form.call? = none)
    (hv : ∀ nested, evalPlain nested form scope s.deeper = .done v s.deeper) :
    Evaluates form scope s (.done v s) := by
  refine (evaluates_iff_step (.const fun R => .pure v) fun nested n => ?_).mpr
    ⟨hs, .done v s.deeper, completes_const_iff.mpr ⟨nofun, rfl⟩, rfl⟩
  have hstep : Eval.step nested (n + 1) form scope s.deeper = .done (.done v) s.deeper := by
    rw [Eval.step, hform]
    change (evalPlain nested form scope s.deeper).andThen _ = _
    rw [hv]
    rfl
  rw [bind_apply, hstep]
  rfl

theorem evaluates_symbol {name : String} {v : Value} (hs : s.depth < s.limit)
    (hname : s.lookup scope name = some v) : Evaluates (.symbol name) scope s (.done v s) := by
  refine evaluates_plain hs rfl fun nested => ?_
  rw [← s.lookup_deeper] at hname
  rw [evalPlain, bind_apply, inspect_apply, hname]
  rfl

/-! ### Special forms -/

/-- The name means no macro. -/
def State.NoMacro (s : State) (scope : Scope) (name : String) : Prop :=
  ∀ params body inner tag, s.lookup scope name ≠ some (.closure params body inner true tag)

theorem State.NoMacro.congr {t : State} {inner : Scope} {name : String} (h : s.NoMacro scope name)
    (ht : t.lookup inner name = s.lookup scope name) : t.NoMacro inner name := by
  rwa [State.NoMacro, ht]

theorem State.NoMacro.deeper {name : String} (h : s.NoMacro scope name) :
    s.deeper.NoMacro scope name :=
  h.congr (s.lookup_deeper scope name)

section Special

variable {args : List Value}

theorem evaluates_special_iff {who : SpecialForm} {x : Fueled Value} (hx : Refining x)
    (hfree : s.NoMacro scope who.name)
    (hspecial : ∀ nested n, Direct.special nested (loop nested (n + 1) (n + 1)) (n + 1) who args
      scope s.deeper = x nested (n + 1) s.deeper) :
    Evaluates (.list (.symbol who.name :: args)) scope s o ↔
      s.depth < s.limit ∧ ∃ p, Completes x s.deeper p ∧ o = p.mapState State.shallower := by
  refine evaluates_iff_step hx fun nested n => ?_
  rw [bind_apply, step_of_not_macro hfree.deeper, stepCall_special, ← bind_apply,
    ← Direct.special_eq]
  exact hspecial nested n

theorem evaluates_quote (hs : s.depth < s.limit)
    (hfree : s.NoMacro scope SpecialForm.quote.name) (v : Value) :
    Evaluates (.list [.symbol "quote", v]) scope s (.done v s) := by
  change Evaluates (.list (.symbol SpecialForm.quote.name :: [v])) scope s _
  exact (evaluates_special_iff (.const fun R => .pure v) hfree fun nested n => rfl).mpr
    ⟨hs, .done v s.deeper, completes_const_iff.mpr ⟨nofun, rfl⟩, rfl⟩

/-- A choice evaluates its test and then to one of its other operands; a missing one is `nil`. -/
theorem evaluates_choose_iff {test yes : Value} (no : Option Value)
    (hfree : s.NoMacro scope SpecialForm.choose.name) :
    Evaluates (.list (.symbol "if" :: test :: yes :: no.toList)) scope s o ↔
      s.depth < s.limit ∧ ∃ q, Evaluates test scope s.deeper q ∧
        (q.mapState State.shallower).Leads
          (fun v => Evaluates (if v.isTruthy then yes else no.getD .nil) scope) o := by
  let chosen (v : Value) : Value := if v.isTruthy then yes else no.getD .nil
  have hchosen (v : Value) := Refining.loop (chosen v) scope
  have hspecial (nested : NestedCalls) (n : Nat) :
      Direct.special nested (loop nested (n + 1) (n + 1)) (n + 1) .choose
          (test :: yes :: no.toList) scope s.deeper =
        (nested.eval test scope >>= fun v =>
          loop nested (n + 1) (n + 1) (chosen v) scope) s.deeper := by
    refine congrFun ?_ _
    cases no with
    | none =>
      refine bind_congr fun v => ?_
      by_cases hv : v.isTruthy
      · simp [chosen, hv]
      · simp only [chosen, hv]
        rfl
    | some no =>
      refine bind_congr fun v => ?_
      by_cases hv : v.isTruthy
      · simp [chosen, hv]
      · simp [chosen, hv]
  change Evaluates (.list (.symbol SpecialForm.choose.name :: test :: yes :: no.toList)) scope s o ↔
    _
  rw [evaluates_special_iff (.bind (.eval test scope) hchosen) hfree hspecial]
  exact and_congr_right fun hs =>
    tail_evaluates_iff (.eval test scope) chosen (fun _ => scope) hs

end Special

/-! ### Calls of functions -/

section Call

variable {name : String} {args : List Value}

theorem completes_evalEach_iff {q : Outcome (List Value)} :
    Completes (fun nested _ => evalEach nested scope [] args) s q ↔
      Each (fun form => Evaluates form scope) args s q := by
  refine (completes_each_iff id (fun form => .eval form scope) (.evalEach scope)
    (fun _ => rfl) fun _ _ _ => rfl).trans ⟨?_, fun hq => ⟨q, hq, ?_⟩⟩
  · rintro ⟨r, hr, rfl⟩
    cases r <;> exact hr
  · cases q <;> rfl

/-- A call of a function that has a name evaluates its operands from left to right and then calls
the function in place. -/
theorem evaluates_call_iff {f : Value} (hname : SpecialForm.ofName? name = none)
    (hf : s.lookup scope name = some f) (hfree : s.NoMacro scope name) :
    Evaluates (.list (.symbol name :: args)) scope s o ↔ s.depth + 1 < s.limit ∧
      ∃ q, Each (fun form => Evaluates form scope) args s.deeper q ∧
        ∃ p, q.Leads (CallsInPlace f) p ∧ o = p.mapState State.shallower := by
  have hhead := Refining.eval (.symbol name) scope
  have hcall (f : Value) := (Refining.evalEach scope [] args).bind (Refining.invoke f)
  have hstep (nested : NestedCalls) (n : Nat) :
      (Eval.step nested (n + 1) (.list (.symbol name :: args)) scope >>=
          Step.proceed (loop nested (n + 1) (n + 1))) s.deeper =
        (nested.eval (.symbol name) scope >>= fun f => evalEach nested scope [] args >>= fun vs =>
          invoke nested (n + 1) f vs >>= Step.proceed (loop nested (n + 1) (n + 1))) s.deeper := by
    rw [bind_apply, step_of_not_macro hfree.deeper, stepCall_function hname, ← bind_apply]
    simp only [bind_assoc]
  have hbound (h : s.deeper.depth < s.deeper.limit) :
      Evaluates (.symbol name) scope s.deeper (.done f s.deeper) :=
    evaluates_symbol h (by rwa [s.lookup_deeper])
  rw [evaluates_iff_step (hhead.bind hcall) hstep]
  constructor
  · rintro ⟨-, p, hp, rfl⟩
    obtain ⟨r, hr, hlead⟩ := (completes_bind_iff hhead hcall).mp hp
    have hs : s.deeper.depth < s.deeper.limit := (evaluates_iff.mp hr).1
    -- The head is looked up without effect, so the operands are evaluated in the same state.
    cases hr.unique hhead (hbound hs)
    obtain ⟨q, hq, hlead⟩ := (completes_bind_iff (.evalEach scope [] args) (.invoke f)).mp hlead
    exact ⟨hs, q, completes_evalEach_iff.mp hq, p, hlead, rfl⟩
  · rintro ⟨hs, q, hq, p, hlead, rfl⟩
    have hoperands := (completes_bind_iff (.evalEach scope [] args) (.invoke f)).mpr
      ⟨q, completes_evalEach_iff.mpr hq, hlead⟩
    exact ⟨Nat.lt_of_succ_lt hs, p,
      (completes_bind_iff hhead hcall).mpr ⟨_, hbound hs, hoperands⟩, rfl⟩

section Builtin

variable {b : Builtin} (hs : s.depth + 1 < s.limit) (hname : SpecialForm.ofName? name = none)
  (hb : s.lookup scope name = some (.builtin b))
include hs hname hb

omit hs hname in
theorem noMacro_of_builtin : s.NoMacro scope name := by
  intro params body inner tag h
  cases hb.symm.trans h

/-- A call of a built-in function that needs nothing but its operands. -/
theorem evaluates_builtin {vs : List Value} {r : Except Error Value}
    (hargs : Each (fun form => Evaluates form scope) args s.deeper (.done vs s.deeper))
    (hr : ∀ (read : String → Run Value) (ap : Value → List Value → Run Value),
      b.call read ap vs = ofExcept r) :
    Evaluates (.list (.symbol name :: args)) scope s (ofExcept r s) := by
  have hcall : CallsInPlace (.builtin b) vs s.deeper (ofExcept r s.deeper) := by
    simp only [callsInPlace_iff, Direct.call, hr]
    exact completes_const_iff.mpr ⟨Outcome.ofExcept_ne_unfinished r s.deeper, rfl⟩
  refine (evaluates_call_iff hname hb (noMacro_of_builtin hb)).mpr ⟨hs, _, hargs, _, hcall, ?_⟩
  cases r <;> rfl

/-- A call fails as its first operand that does. -/
theorem evaluates_builtin_failed {e : Error}
    (hargs : Each (fun form => Evaluates form scope) args s.deeper (.failed e s.deeper)) :
    Evaluates (.list (.symbol name :: args)) scope s (.failed e s) :=
  (evaluates_call_iff hname hb (noMacro_of_builtin hb)).mpr ⟨hs, _, hargs, _, rfl, rfl⟩

end Builtin

end Call

end Lisp
