import Lisp.Proofs.Eval.Completion
import Lisp.Proofs.Run.After

/-!
# Macro expansion

What a form expands to is no macro call any more, so it is expanded no further, and evaluating the
form is evaluating what it expands to, in the state in which expanding it ends: a step of evaluation
begins with the expansion (`step_eq_expand`), and a form that expands to itself takes the same step.
Evaluating a form is itself a nested call, so the expansion that is part of it is made one level
further in than one that is asked for. That shows only in how soon nested calls are refused.
-/

namespace Lisp

open Run

namespace Eval

variable {nested : NestedCalls} {n : Nat} {form x : Value} {scope : Scope} {s t : State}

theorem macroCall?_of_call?_eq_none (h : form.call? = none) : macroCall? s scope form = none := by
  unfold macroCall?
  split
  next => cases h
  next => rfl

/-- A form that is no macro call expands to itself. -/
theorem expand_of_not_macro (h : macroCall? s scope form = none) :
    expand nested (n + 1) form scope s = .done form s := by
  rw [expand, bind_apply, inspect_apply, h]
  rfl

/-- A macro call expands to what the value of the macro's body expands to. -/
theorem expand_of_call {c : MacroCall} (h : macroCall? s scope form = some c) :
    expand nested (n + 1) form scope s =
      (enterClosure c.params c.scope c.args >>= fun inner =>
        nested.eval c.body inner >>= fun x => expand nested n x scope) s := by
  rw [expand, bind_apply, inspect_apply, h]
  rfl

/-- What a form expands to is no macro call. -/
theorem expand_after (n : Nat) (form : Value) (scope : Scope) (s : State) :
    (expand nested n form scope).After s fun x t => macroCall? t scope x = none := by
  induction n generalizing form s with
  | zero => exact nofun
  | succ n ih =>
    refine .bind (.of_eq (inspect_apply _ s) ?_)
    cases hcall : macroCall? s scope form with
    | none => exact .pure hcall
    | some c =>
      refine .bind fun inner t _ => ?_
      exact .bind fun expansion u _ => ih expansion u

/-- What becomes of a form that is no macro call. -/
def finish (nested : NestedCalls) (n : Nat) (form : Value) (scope : Scope) : Run Step :=
  match form.call? with
  | none => do return .done (← evalPlain nested form scope)
  | some (head, args) => stepCall nested n head args scope

theorem step_eq_finish (n : Nat) (form : Value) (scope : Scope) :
    step nested (n + 1) form scope =
      expand nested (n + 1) form scope >>= fun x => finish nested (n + 1) x scope := by
  unfold step
  cases hform : form.call? with
  | some c => rfl
  | none =>
    funext s
    rw [bind_apply, expand_of_not_macro (macroCall?_of_call?_eq_none hform)]
    change _ = finish nested (n + 1) form scope s
    rw [finish, hform]

/-- Taking a step is expanding the form and taking the step of what it expands to. -/
theorem step_eq_expand (n : Nat) (form : Value) (scope : Scope) :
    step nested (n + 1) form scope =
      expand nested (n + 1) form scope >>= fun x => step nested (n + 1) x scope := by
  rw [step_eq_finish]
  funext s
  refine bind_congr_after rfl ((expand_after (n + 1) form scope s).mono fun x t hx => ?_)
  rw [step_eq_finish, bind_apply, expand_of_not_macro hx]
  rfl

/-- Evaluating a form by steps is expanding it and evaluating what it expands to by steps. -/
theorem loop_eq_expand (n : Nat) (form : Value) (scope : Scope) :
    loop nested n n form scope =
      expand nested n form scope >>= fun x => loop nested n n x scope := by
  cases n with
  | zero => rfl
  | succ n => simp only [loop_succ, step_eq_expand n form, bind_assoc]

end Eval

variable {form : Value} {scope : Scope} {s : State} {p : Outcome Value}

/-- Expanding the macro calls at the head of a form ends in `p`, and no nested call is refused on
the way. -/
def Expands (form : Value) (scope : Scope) : State → Outcome Value → Prop :=
  Completes fun nested n => Eval.expand nested n form scope

/-- A form that is no macro call expands to itself. -/
theorem expands_iff_of_not_macro (h : Eval.macroCall? s scope form = none) :
    Expands form scope s p ↔ p = .done form s := by
  have hexpand := Fueled.Refining.expand form scope
  rw [Expands, completes_congr_succ hexpand fun _ _ => Eval.expand_of_not_macro h]
  refine (completes_const_iff (x := pure form)).trans ⟨fun h => h.2.symm, ?_⟩
  rintro rfl
  exact ⟨nofun, rfl⟩

/-- A macro call expands to what the value of the macro's body expands to. -/
theorem expands_iff_of_call {c : Eval.MacroCall} (h : Eval.macroCall? s scope form = some c) :
    Expands form scope s p ↔ (Eval.enterClosure c.params c.scope c.args s).Leads
      (fun inner t p => ∃ q, Evaluates c.body inner t q ∧
        q.Leads (fun x => Expands x scope) p) p := by
  have hbody := Fueled.Refining.eval c.body
  have hexpand (x : Value) := Fueled.Refining.expand x scope
  have henter := Fueled.Refining.enterClosure c.params c.scope c.args
  rw [Expands, completes_congr_succ (.expand form scope) fun _ _ => Eval.expand_of_call h,
    completes_bind_iff henter fun inner => (hbody inner).bind hexpand]
  constructor
  · rintro ⟨o, ho, hlead⟩
    obtain ⟨-, rfl⟩ := completes_const_iff.mp ho
    exact hlead.mono fun inner t _ ht => (completes_bind_iff (hbody inner) hexpand).mp ht
  · intro hlead
    refine ⟨_, completes_const_iff.mpr ⟨hlead.ne_unfinished, rfl⟩, ?_⟩
    exact hlead.mono fun inner t _ ht => (completes_bind_iff (hbody inner) hexpand).mpr ht

/-- A form evaluates to what comes of its expansion one level further in. -/
theorem evaluates_iff_expands {o : Outcome Value} :
    Evaluates form scope s o ↔ s.depth < s.limit ∧ ∃ q, Expands form scope s.deeper q ∧
      (q.mapState State.shallower).Leads (fun x t => Evaluates x scope t) o := by
  have hloop : (fun nested n => Eval.loop nested n n form scope) = fun nested n =>
      Eval.expand nested n form scope >>= fun x => Eval.loop nested n n x scope := by
    funext nested n
    exact Eval.loop_eq_expand n form scope
  rw [evaluates_iff, hloop]
  exact and_congr_right fun hs =>
    tail_evaluates_iff (.expand form scope) id (fun _ => scope) hs

theorem growing_expandMacros (form : Value) (scope : Scope) :
    Growing fun n => expandMacros n form scope :=
  fun _ _ h => Eval.expand_refines (limited_refines (eval_refines h)) h form scope

/-- What a form expands to is expanded no further, and the form evaluates to what that evaluates to
in the state that expanding it leaves behind, or fails as its expansion does. -/
theorem expansion_preserves_evaluation (form : Value) (scope : Scope) (s : State) :
    (∀ n x t, expandMacros n form scope s = .done x t →
      Eval.macroCall? t scope x = none ∧ ∀ m, expandMacros (m + 1) x scope t = .done x t) ∧
    (∀ o, Evaluates form scope s o →
      (∃ p, Expands form scope s p) ∧ ∀ p, Ends (fun n => expandMacros n form scope) s p →
        p.Leads (fun x t => Evaluates x scope t) o) ∧
    (s.depth < s.limit → ∀ q, Expands form scope s.deeper q →
      Expands form scope s (q.mapState State.shallower) ∧
      ∀ o, (q.mapState State.shallower).Leads (fun x t => Evaluates x scope t) o ↔
        Evaluates form scope s o) := by
  have hexpand := Fueled.Refining.expand form scope
  refine ⟨fun n x t hx => ?_, fun o ho => ?_, fun hs q hq => ⟨hq.shallower hexpand, fun o => ?_⟩⟩
  · have hcall : Eval.macroCall? t scope x = none := Eval.expand_after n form scope s x t hx
    exact ⟨hcall, fun m => Eval.expand_of_not_macro hcall⟩
  · obtain ⟨-, q, hq, hlead⟩ := evaluates_iff_expands.mp ho
    have hout : Expands form scope s (q.mapState State.shallower) := hq.shallower hexpand
    refine ⟨⟨_, hout⟩, fun p hp => ?_⟩
    rw [hp.unique (growing_expandMacros form scope) hout.ends]
    exact hlead
  · refine ⟨fun hlead => evaluates_iff_expands.mpr ⟨hs, q, hq, hlead⟩, fun ho => ?_⟩
    obtain ⟨-, q', hq', hlead⟩ := evaluates_iff_expands.mp ho
    rw [hq.unique hexpand hq']
    exact hlead

/-- A call of the macro `outer`, which expands to a call of the macro `inner`. -/
theorem expansion_preserves_evaluation_of_outer :
    let expander (body : Value) := Value.closure ⟨[], none⟩ body (.global 0) true .nil
    let form := Value.list [.symbol "outer"]
    let s := (State.initial Host.plain).newGlobal.2.bindAll 0
      [("inner", expander (.int 1)),
        ("outer", expander (.list [.symbol "quote", .list [.symbol "inner"]]))]
    let t := s.newFrame.2.newFrame.2
    (s.depth < s.limit ∧ Expands form (.global 0) s.deeper (.done (.int 1) t.deeper)) ∧
      Evaluates form (.global 0) s (.done (.int 1) t) := by
  intro expander form s t
  have hexpands : Expands form (.global 0) s.deeper (.done (.int 1) t.deeper) := by
    refine (completes_iff_ends (.expand form (.global 0))).mpr
      ⟨Outcome.done_ne_unfinished _ _, 5, ?_⟩
    simp only [t, s, State.bindAll, State.bind, State.newGlobal, State.newFrame, State.initial,
      List.foldl_cons, List.foldl_nil, List.push_toArray, List.nil_append, List.modify_toArray,
      List.size_toArray, List.length_nil, List.modify_zero_cons]
    cbv
  have hs : s.depth < s.limit := by decide
  have hevaluates : Evaluates (.int 1) (.global 0) t (.done (.int 1) t) :=
    .of_stopping (n := 2) rfl (Outcome.done_ne_unfinished _ _)
  obtain ⟨-, -, hdeeper⟩ := expansion_preserves_evaluation form (.global 0) s
  exact ⟨⟨hs, hexpands⟩, ((hdeeper hs _ hexpands).2 _).mp hevaluates⟩

end Lisp
