import Lisp.Proofs.Eval.Completion
import Lisp.Proofs.Eval.Renumbering
import Lisp.Session

/-!
# Forms that are evaluated one after the other

What a session evaluates in order can be evaluated as the operands of `do` as well, with a last
operand `nil`: the form ends the way its operands do, one level further out, up to the value of the
last one (`ends_do_iff`). `EvaluatesInOrder` says that forms end in an outcome in order and no
nested call is refused on the way; then they end so one level further out, too.
-/

namespace Lisp

open Run Policy

namespace Session

/-! ### Forms in order -/

/-- Evaluating forms in order, behind the value `last`, ends in `o`, and no nested call is refused
on the way. -/
inductive EvaluatesInOrder (scope : Scope) : Value → List Value → State → Outcome Value → Prop
  | nil (last : Value) (s : State) : EvaluatesInOrder scope last [] s (.done last s)
  | cons {last form v : Value} {forms : List Value} {s t : State} {o : Outcome Value} :
      Evaluates form scope s (.done v t) → EvaluatesInOrder scope v forms t o →
        EvaluatesInOrder scope last (form :: forms) s o
  | failed {last form : Value} {forms : List Value} {s t : State} {e : Error} :
      Evaluates form scope s (.failed e t) →
        EvaluatesInOrder scope last (form :: forms) s (.failed e t)

variable {scope : Scope} {last : Value} {forms : List Value} {s : State} {o : Outcome Value}

theorem evalForms_refines {n m : Nat} (h : n ≤ m) (scope : Scope) (last : Value)
    (forms : List Value) :
    Refines Counts.same (evalForms n scope last forms) (evalForms m scope last forms) := by
  induction forms generalizing last with
  | nil => exact .pure last
  | cons form forms ih => exact (eval_refines h form scope).bind ih

theorem EvaluatesInOrder.ends (h : EvaluatesInOrder scope last forms s o) :
    Ends (fun n => evalForms n scope last forms) s o := by
  induction h with
  | nil last s => exact ⟨nofun, 0, rfl⟩
  | @cons last form v forms s t o hform _ ih =>
    obtain ⟨n, hn⟩ := hform.ends.eq_of_le (eval_refines · form scope)
    obtain ⟨m, hm⟩ := ih.eq_of_le (evalForms_refines · scope v forms)
    refine ⟨ih.1, max n m, ?_⟩
    change (eval (max n m) form scope >>= fun v => evalForms (max n m) scope v forms) s = o
    rw [bind_apply, hn _ (Nat.le_max_left n m)]
    exact hm _ (Nat.le_max_right n m)
  | @failed last form forms s t e hform =>
    obtain ⟨-, n, hn, -⟩ := hform
    refine ⟨nofun, n, ?_⟩
    change (eval n form scope >>= fun v => evalForms n scope v forms) s = _
    rw [bind_apply, hn]
    rfl

/-- Forms that are evaluated without a refused call are evaluated alike one level further out. -/
theorem EvaluatesInOrder.shallower (h : EvaluatesInOrder scope last forms s.deeper o) :
    EvaluatesInOrder scope last forms s (o.mapState State.shallower) := by
  generalize hs : s.deeper = t at h
  induction h generalizing s with
  | nil last t =>
    subst hs
    exact .nil last s
  | @cons last form v forms t u o hform _ ih =>
    subst hs
    exact .cons hform.shallower (ih (State.deeper_shallower hform.counts_eq))
  | failed hform =>
    subst hs
    exact .failed hform.shallower

/-- A text is evaluated by evaluating its forms in order. -/
theorem ends_evalText {text : String} (hread : readAll s.limit s.depth text = .ok forms)
    (hforms : forms ≠ []) (h : Ends (fun n => evalForms n scope .nil forms) s o) :
    Ends (fun n => evalText n scope text) s o := by
  obtain ⟨ho, n, hn⟩ := h
  refine ⟨ho, n, ?_⟩
  change (readForms text >>= _) s = o
  rw [bind_apply, readForms_apply, hread]
  cases forms with
  | nil => exact absurd rfl hforms
  | cons form forms => exact hn

/-! ### Operands of `do` -/

theorem doInOrder_eq_evalForms (n : Nat) (scope : Scope) (last : Value) (forms : List Value) :
    Eval.doInOrder (.limited n) (forms ++ [.nil]) scope =
      evalForms n scope last forms >>= fun _ => pure (.next .nil scope) := by
  induction forms generalizing last with
  | nil => rfl
  | cons form forms ih =>
    have hcons : Eval.doInOrder (.limited n) (form :: (forms ++ [.nil])) scope =
        eval n form scope >>= fun _ => Eval.doInOrder (.limited n) (forms ++ [.nil]) scope := by
      cases forms <;> rfl
    rw [List.cons_append, hcons, evalForms, bind_assoc]
    exact bind_congr fun v => ih v

section Operands

variable (hdo : ∀ params body inner tag,
  s.lookup scope "do" ≠ some (.closure params body inner true tag)) (hs : s.depth < s.limit)
include hdo hs

/-- A `do` form whose last operand is `nil` evaluates the others in order. -/
theorem eval_do_eq (n : Nat) (last : Value) (forms : List Value) :
    eval (n + 3) (.list (.symbol "do" :: (forms ++ [.nil]))) scope s =
      ((evalForms (n + 2) scope last forms >>= fun _ => pure .nil) s.deeper).mapState
        State.shallower := by
  have hdo' : ∀ params body inner tag,
      s.deeper.lookup scope SpecialForm.doInOrder.name ≠
        some (.closure params body inner true tag) := by
    rwa [State.lookup_deeper]
  have hloop : Eval.loop (.limited (n + 2)) (n + 2) (n + 2)
        (.list (.symbol "do" :: (forms ++ [.nil]))) scope s.deeper =
      (Eval.doInOrder (.limited (n + 2)) (forms ++ [.nil]) scope >>=
        Eval.Step.proceed (Eval.loop (.limited (n + 2)) (n + 2) (n + 1))) s.deeper :=
    loop_special hdo' (n + 1)
  rw [eval_eq_loop hs, hloop, doInOrder_eq_evalForms _ _ last, bind_assoc]
  rfl

/-- A `do` form whose last operand is `nil` ends the way the others do in order, and in `nil` where
they end in a value. -/
theorem ends_do_iff (last : Value) (forms : List Value) :
    Ends (fun n => eval n (.list (.symbol "do" :: (forms ++ [.nil]))) scope) s o ↔
      ∃ p, Ends (fun n => evalForms n scope last forms) s.deeper p ∧
        o = (p.andThen fun _ t => .done .nil t).mapState State.shallower := by
  constructor
  · intro h
    obtain ⟨n, hn⟩ := h.eq_of_le (eval_refines · _ scope)
    have heval := (eval_do_eq hdo hs n last forms).symm.trans (hn (n + 3) (Nat.le_add_right n 3))
    refine ⟨evalForms (n + 2) scope last forms s.deeper, ⟨fun hp => ?_, n + 2, rfl⟩, heval.symm⟩
    rw [bind_apply, hp] at heval
    exact h.1 heval.symm
  · rintro ⟨p, hp, rfl⟩
    obtain ⟨n, hn⟩ := hp.eq_of_le (evalForms_refines · scope last forms)
    refine ⟨?_, n + 3, (eval_do_eq hdo hs n last forms).trans ?_⟩
    · cases p with
      | unfinished => exact absurd rfl hp.1
      | done | failed => exact nofun
    · rw [bind_apply, hn (n + 2) (Nat.le_add_right n 2)]
      rfl

end Operands

/-- Forms that are evaluated in order in a state with one more frame end the way they do without
that frame. -/
theorem evalForms_matches {f : FrameId} (n : Nat) (scope : Scope) (last : Value)
    (forms : List Value) :
    Run.Matches f (Value.renumber (skip f)) (evalForms n scope last forms)
      (evalForms n (scope.renumber (skip f)) (last.renumber (skip f))
        (forms.map (Value.renumber (skip f)))) := by
  induction forms generalizing last with
  | nil => exact .pure rfl
  | cons form forms ih => exact (eval_matches n form scope).bind fun v => ih v

end Session

end Lisp
