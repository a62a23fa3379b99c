import Lisp.Proofs.Builtin.Renumbering
import Lisp.Proofs.Reader.Grammar

/-!
# Evaluation and the numbers of frames

Evaluating a form in a state with one more frame, to which nothing refers, ends the way it does
without that frame, up to the numbers of the frames behind it: `eval_matches`.
-/

namespace Lisp

open Run

/-! ### Reading and templates -/

namespace Template

variable {ρ : FrameId → FrameId}

theorem operand_error_renumber {who : String} {args : List Value} {e : Error}
    (h : operand who args = .error e) : e.renumber ρ = e := by
  unfold operand at h
  split at h
  · cases h
  · cases h
    rfl

theorem elements_error_renumber {g : Value → Except Error Value} {rest : Value}
    {items : List Value} {e : Error} (hg : ∀ v e, g v = .error e → e.renumber ρ = e)
    (h : items.foldlM (element g) rest = .error e) : e.renumber ρ = e := by
  induction items generalizing rest with
  | nil => cases h
  | cons v vs ih =>
    rw [List.foldlM_cons] at h
    cases hv : element g rest v with
    | ok rest' =>
      rw [hv] at h
      exact ih h
    | error e' =>
      rw [hv] at h
      cases h
      by_cases hform : v.isForm "splice-unquote"
      · obtain ⟨args, tag, rfl⟩ := Value.isForm_iff.mp hform
        rw [element_spliced, map_eq_error_iff] at hv
        exact operand_error_renumber hv
      · rw [element_expanded hform, map_eq_error_iff] at hv
        exact hg v _ hv

/-- Expanding a template throws nothing. -/
theorem expand_error_renumber {limit room : Nat} {v : Value} {e : Error}
    (h : expand limit room v = .error e) : e.renumber ρ = e := by
  induction room generalizing v e with
  | zero =>
    cases h
    rfl
  | succ room ih =>
    unfold expand at h
    split at h
    · cases h
    · exact operand_error_renumber h
    · exact elements_error_renumber (fun _ _ => ih) h
    · cases h

theorem expand_matches (limit room : Nat) (v : Value) :
    Matches ρ (Value.renumber ρ) (expand limit room v) (expand limit room (v.renumber ρ)) :=
  .of_map (expand_map Value.keepsLayers_renumber limit room v) fun _ => expand_error_renumber

end Template

/-! ### Parameter lists -/

namespace Params

variable {ρ : FrameId → FrameId}

theorem parse_renumber (forms : List Value) :
    parse (forms.map (Value.renumber ρ)) = parse forms :=
  parse_map Value.keepsLayers_renumber forms

theorem parse_error_renumber {forms : List Value} {e : Error} (h : parse forms = .error e) :
    e.renumber ρ = e := by
  unfold parse at h
  generalize [] = fixed at h
  fun_induction parseOnto fixed forms with
  | case6 _ _ _ _ _ _ ih => exact ih h
  | _ => cases h <;> rfl

theorem bindings_renumber (p : Params) (args : List Value) :
    p.bindings (args.map (Value.renumber ρ)) =
      (p.bindings args).map (Prod.map id (Value.renumber ρ)) := by
  have hfixed : p.fixed.zip (args.map (Value.renumber ρ)) =
      (p.fixed.zip args).map (Prod.map id (Value.renumber ρ)) := by
    rw [List.zip_map_right]
  rw [bindings, bindings, hfixed, List.map_append]
  cases p.rest with
  | none => rfl
  | some rest => simp

end Params

/-! ### Forms that are read -/

theorem Reader.Derives.not_captures {n : Nat} {us : List Token} {v : Value}
    (h : Reader.Derives n us v) (c : Scope) : ¬ v.Captures c :=
  fun ⟨_, _, _, _, hpart⟩ => h.fits_closureless _ hpart

theorem Reader.Derives.renumber_eq {n : Nat} {us : List Token} {v : Value}
    (h : Reader.Derives n us v) (ρ : FrameId → FrameId) : v.renumber ρ = v :=
  Value.renumber_eq_self fun c hc => absurd hc (h.not_captures c)

namespace Eval

/-- The step with other numbers for frames. -/
def Step.renumber (ρ : FrameId → FrameId) : Step → Step
  | .done v => .done (v.renumber ρ)
  | .next form scope => .next (form.renumber ρ) (scope.renumber ρ)

end Eval

/-- The nested calls of `b` match those of `a`. -/
structure NestedCalls.Matches (n : FrameId) (a b : NestedCalls) : Prop where
  eval : ∀ form scope, Run.Matches n (Value.renumber (skip n)) (a.eval form scope)
    (b.eval (form.renumber (skip n)) (scope.renumber (skip n)))
  read : ∀ text, Run.Matches n (Value.renumber (skip n)) (a.read text) (b.read text)
  template : ∀ v, Run.Matches n (Value.renumber (skip n)) (a.template v)
    (b.template (v.renumber (skip n)))

namespace Eval

variable {n : FrameId} {a b : NestedCalls}

theorem enterClosure_matches (params : Params) (scope : Scope) (args : List Value) :
    Run.Matches n (Scope.renumber (skip n)) (enterClosure params scope args)
      (enterClosure params (scope.renumber (skip n)) (args.map (Value.renumber (skip n)))) := by
  have harity : Matches (skip n) id (params.arity.check "closure" args.length)
      (params.arity.check "closure" (args.map (Value.renumber (skip n))).length) := by
    rw [List.length_map]
    unfold Arity.check
    split
    · exact .ok ()
    · exact .error_self rfl
  refine (Run.Matches.ofExcept harity).bind fun _ => .modify fun s t hst => ?_
  obtain ⟨hscope, hstate⟩ := hst.newChild scope
  refine ⟨hscope, ?_⟩
  have hbound := hstate.bindAll (s.newChild scope).1.frame (params.bindings args)
  rwa [← State.Renumbered.frame_renumber, ← hscope, ← Params.bindings_renumber] at hbound

theorem notCallable_matches {α β : Type} {g : α → β} (v : Value) :
    Run.Matches n g (notCallable v) (notCallable (v.renumber (skip n))) := by
  refine (Run.Matches.shown .readable v).bind fun shown => ?_
  rw [Value.kind_renumber]
  exact .raise_self rfl

theorem apply_matches (h : a.Matches n b) (k : Nat) (f : Value) (args : List Value) :
    Run.Matches n (Value.renumber (skip n)) (apply a k f args)
      (apply b k (f.renumber (skip n)) (args.map (Value.renumber (skip n)))) := by
  induction k generalizing f args with
  | zero => exact .unfinished
  | succ k ih =>
    cases f with
    | builtin f => exact Builtin.call_matches args ih h.read f
    | closure params body scope isMacro tag =>
      rw [Value.renumber_closure]
      exact (enterClosure_matches _ _ _).bind fun inner => h.eval _ _
    | _ => exact notCallable_matches _

/-- The macro call with other numbers for frames. -/
def MacroCall.renumber (ρ : FrameId → FrameId) (c : MacroCall) : MacroCall :=
  ⟨c.params, c.body.renumber ρ, c.scope.renumber ρ, c.args.map (Value.renumber ρ)⟩

theorem macroCall?_renumbered {s t : State} (hst : s.Renumbered n t) (scope : Scope)
    (form : Value) :
    macroCall? t (scope.renumber (skip n)) (form.renumber (skip n)) =
      (macroCall? s scope form).map (MacroCall.renumber (skip n)) := by
  cases form with
  | seq kind items tag =>
    cases kind with
    | vector => simp [macroCall?]
    | list =>
      rcases items with _ | ⟨head, args⟩
      · simp [macroCall?]
      · cases head with
        | symbol name =>
          rw [Value.renumber_seq, List.map_cons, Value.renumber_symbol, macroCall?, macroCall?,
            hst.lookup]
          cases s.lookup scope name with
          | none => rfl
          | some v =>
            cases v with
            | closure params body inner isMacro tag =>
              rw [Option.map_some, Value.renumber_closure]
              cases isMacro <;> rfl
            | _ => simp
        | _ => simp [macroCall?]
  | _ => simp [macroCall?]

theorem expand_matches (h : a.Matches n b) (k : Nat) (form : Value) (scope : Scope) :
    Run.Matches n (Value.renumber (skip n)) (expand a k form scope)
      (expand b k (form.renumber (skip n)) (scope.renumber (skip n))) := by
  induction k generalizing form with
  | zero => exact .unfinished
  | succ k ih =>
    refine (Run.Matches.inspect fun s t hst => macroCall?_renumbered hst scope form).bind
      fun call => ?_
    cases call with
    | none => exact .pure rfl
    | some c =>
      refine (enterClosure_matches _ _ _).bind fun inner => (h.eval _ _).bind fun expansion => ?_
      exact ih expansion

theorem symbolOf_matches (who : String) (v : Value) :
    Matches (skip n) id (symbolOf who v) (symbolOf who (v.renumber (skip n))) := by
  rw [symbolOf, symbolOf, Value.symbol?_renumber, Value.kind_renumber]
  cases v.symbol? with
  | none => exact .error_self rfl
  | some name => exact .ok name

theorem wrongCount_matches {α β : Type} {g : α → β} (who : SpecialForm) (expected : Arity)
    (args : List Value) :
    Run.Matches n g (wrongCount who expected args)
      (wrongCount who expected (args.map (Value.renumber (skip n)))) := by
  rw [wrongCount, wrongCount, List.length_map]
  exact .raise_self rfl

theorem newChild_matches (scope : Scope) :
    Run.Matches n (Scope.renumber (skip n)) (Run.modify (·.newChild scope))
      (Run.modify (·.newChild (scope.renumber (skip n)))) :=
  .modify fun _ _ hst => hst.newChild scope

theorem function_matches (args : List Value) (scope : Scope) :
    Run.Matches n (Step.renumber (skip n)) (function args scope)
      (function (args.map (Value.renumber (skip n))) (scope.renumber (skip n))) := by
  rcases args with _ | ⟨params, _ | ⟨body, _ | ⟨w, more⟩⟩⟩
  · exact wrongCount_matches _ _ []
  · exact wrongCount_matches _ _ [params]
  · simp only [List.map_cons, List.map_nil, function, Value.items?_renumber, Value.kind_renumber]
    cases params.items? with
    | none => exact .raise_self rfl
    | some forms =>
      simp only [Option.map_some, Params.parse_renumber]
      have hparse : Matches (skip n) id (Params.parse forms) (Params.parse forms) :=
        .self fun e he => Params.parse_error_renumber he
      refine (Run.Matches.ofExcept hparse).bind fun params => .pure ?_
      simp [Step.renumber]
  · exact wrongCount_matches _ _ (params :: body :: w :: more)

theorem quote_matches (args : List Value) :
    Run.Matches n (Step.renumber (skip n)) (quote args)
      (quote (args.map (Value.renumber (skip n)))) := by
  rcases args with _ | ⟨form, _ | ⟨w, more⟩⟩
  · exact wrongCount_matches _ _ []
  · exact .pure rfl
  · exact wrongCount_matches _ _ (form :: w :: more)

/-- What is no call of `catch*` is shown in the error. -/
theorem catchClause_of_not_isForm {clause : Value} (h : ¬ clause.isForm "catch*") :
    catchClause clause =
      (do .raise (.malformed (.notCatch (← Run.shown .readable clause)))) :=
  catchClause.eq_3 clause fun args tag hclause => h (Value.isForm_iff.mpr ⟨args, tag, hclause⟩)

theorem catchClause_matches (clause : Value) :
    Run.Matches n (Prod.map id (Value.renumber (skip n))) (catchClause clause)
      (catchClause (clause.renumber (skip n))) := by
  by_cases hclause : clause.isForm "catch*"
  · obtain ⟨args, tag, rfl⟩ := Value.isForm_iff.mp hclause
    rw [Value.renumber_seq, List.map_cons, Value.renumber_symbol]
    rcases args with _ | ⟨name, _ | ⟨handler, _ | ⟨w, more⟩⟩⟩
    · exact .raise_self rfl
    · exact .raise_self rfl
    · exact (Run.Matches.ofExcept (symbolOf_matches _ name)).bind fun name => .pure rfl
    · exact .raise_self rfl
  · have hclause' : ¬ (clause.renumber (skip n)).isForm "catch*" := by
      rwa [Value.isForm_renumber]
    rw [catchClause_of_not_isForm hclause, catchClause_of_not_isForm hclause']
    refine (Run.Matches.shown .readable clause).bind fun shown => ?_
    exact .raise_self rfl

section Forms

variable (h : a.Matches n b)
include h

theorem evalEach_matches (scope : Scope) (done forms : List Value) :
    Run.Matches n (List.map (Value.renumber (skip n))) (evalEach a scope done forms)
      (evalEach b (scope.renumber (skip n)) (done.map (Value.renumber (skip n)))
        (forms.map (Value.renumber (skip n)))) := by
  induction forms generalizing done with
  | nil => exact .pure List.map_reverse
  | cons form forms ih => exact (h.eval _ _).bind fun v => ih (v :: done)

theorem evalEntries_matches (scope : Scope) (done entries : Dict) :
    Run.Matches n (Dict.renumber (skip n)) (evalEntries a scope done entries)
      (evalEntries b (scope.renumber (skip n)) (done.renumber (skip n))
        (entries.renumber (skip n))) := by
  induction entries generalizing done with
  | nil => exact .pure rfl
  | cons e entries ih =>
    refine (h.eval e.2 scope).bind fun v => ?_
    exact (Run.Matches.ofExcept (Dict.insert_matches e.1 v done)).bind ih

theorem evalPlain_matches (form : Value) (scope : Scope) :
    Run.Matches n (Value.renumber (skip n)) (evalPlain a form scope)
      (evalPlain b (form.renumber (skip n)) (scope.renumber (skip n))) := by
  cases form with
  | symbol name =>
    rw [Value.renumber_symbol]
    refine (Run.Matches.inspect fun s t hst => hst.lookup scope name).bind fun v? => ?_
    cases v? with
    | none => exact .raise_self rfl
    | some v => exact .pure rfl
  | seq kind items tag =>
    rw [Value.renumber_seq]
    cases kind with
    | list => exact .pure (Value.renumber_seq _ _ _)
    | vector =>
      refine (evalEach_matches h scope [] items).bind fun vs => ?_
      exact .pure (Value.renumber_vector vs)
  | map entries tag =>
    rw [Value.renumber_map]
    refine (evalEntries_matches h scope [] entries).bind fun d => ?_
    exact .pure (Value.renumber_dict d)
  | closure params body scope isMacro tag =>
    rw [Value.renumber_closure]
    exact .pure (Value.renumber_closure _ _ _ _ _)
  | _ => exact .pure rfl

theorem define_matches (args : List Value) (scope : Scope) :
    Run.Matches n (Step.renumber (skip n)) (define a args scope)
      (define b (args.map (Value.renumber (skip n))) (scope.renumber (skip n))) := by
  rcases args with _ | ⟨name, _ | ⟨form, _ | ⟨w, more⟩⟩⟩
  · exact wrongCount_matches _ _ []
  · exact wrongCount_matches _ _ [name]
  · refine (Run.Matches.ofExcept (symbolOf_matches _ name)).bind fun name => ?_
    refine (h.eval form scope).bind fun v => ?_
    exact (Run.Matches.update fun s t hst => hst.define scope name v).bind fun _ => .pure rfl
  · exact wrongCount_matches _ _ (name :: form :: w :: more)

theorem defineMacro_matches (args : List Value) (scope : Scope) :
    Run.Matches n (Step.renumber (skip n)) (defineMacro a args scope)
      (defineMacro b (args.map (Value.renumber (skip n))) (scope.renumber (skip n))) := by
  rcases args with _ | ⟨name, _ | ⟨form, _ | ⟨w, more⟩⟩⟩
  · exact wrongCount_matches _ _ []
  · exact wrongCount_matches _ _ [name]
  · refine (Run.Matches.ofExcept (symbolOf_matches _ name)).bind fun name => ?_
    refine (h.eval form scope).bind fun v => ?_
    have hother : Run.Matches n (Step.renumber (skip n))
        (Run.raise (.type (.mismatch SpecialForm.defineMacro.name "a function" v.kind)))
        (Run.raise (.type (.mismatch SpecialForm.defineMacro.name "a function" v.kind))) :=
      .raise_self rfl
    cases v with
    | closure params body inner isMacro tag =>
      rw [Value.renumber_closure]
      refine (Run.Matches.update fun s t hst => ?_).bind fun _ => .pure ?_
      · have hdefined := hst.define scope name (.closure params body inner true tag)
        rwa [Value.renumber_closure] at hdefined
      · exact congrArg Step.done (Value.renumber_closure _ _ _ _ _)
    | seq kind items tag =>
      rw [Value.renumber_seq]
      cases kind <;> exact hother
    | map entries tag =>
      rw [Value.renumber_map]
      exact hother
    | _ => exact hother
  · exact wrongCount_matches _ _ (name :: form :: w :: more)

theorem bindEach_matches (scope : Scope) (bindings : List Value) :
    Run.Matches n id (bindEach a scope bindings)
      (bindEach b (scope.renumber (skip n)) (bindings.map (Value.renumber (skip n)))) := by
  fun_induction bindEach a scope bindings with
  | case1 name form bindings ih =>
    refine (Run.Matches.ofExcept (symbolOf_matches _ name)).bind fun name => ?_
    refine (h.eval form scope).bind fun v => ?_
    exact (Run.Matches.update fun s t hst => hst.define scope name v).bind fun _ => ih
  | case2 bindings hbindings =>
    rcases bindings with _ | ⟨name, _ | ⟨form, bindings⟩⟩
    · exact .pure rfl
    · exact .pure rfl
    · exact absurd rfl (hbindings name form bindings)

theorem bindLocal_matches (args : List Value) (scope : Scope) :
    Run.Matches n (Step.renumber (skip n)) (bindLocal a args scope)
      (bindLocal b (args.map (Value.renumber (skip n))) (scope.renumber (skip n))) := by
  rcases args with _ | ⟨bindings, _ | ⟨body, _ | ⟨w, more⟩⟩⟩
  · exact wrongCount_matches _ _ []
  · exact wrongCount_matches _ _ [bindings]
  · simp only [List.map_cons, List.map_nil, bindLocal, Value.items?_renumber, Value.kind_renumber]
    cases bindings.items? with
    | none => exact .raise_self rfl
    | some items =>
      simp only [Option.map_some, List.length_map]
      split
      · refine (newChild_matches scope).bind fun inner => ?_
        exact (bindEach_matches h inner items).bind fun _ => .pure rfl
      · exact .raise_self rfl
  · exact wrongCount_matches _ _ (bindings :: body :: w :: more)

theorem doInOrder_matches (args : List Value) (scope : Scope) :
    Run.Matches n (Step.renumber (skip n)) (doInOrder a args scope)
      (doInOrder b (args.map (Value.renumber (skip n))) (scope.renumber (skip n))) := by
  induction args with
  | nil => exact wrongCount_matches _ _ []
  | cons form forms ih =>
    cases forms with
    | nil => exact .pure rfl
    | cons next forms => exact (h.eval form scope).bind fun _ => ih

theorem choose_matches (args : List Value) (scope : Scope) :
    Run.Matches n (Step.renumber (skip n)) (choose a args scope)
      (choose b (args.map (Value.renumber (skip n))) (scope.renumber (skip n))) := by
  rcases args with _ | ⟨test, _ | ⟨yes, _ | ⟨no, _ | ⟨w, more⟩⟩⟩⟩
  · exact wrongCount_matches _ _ []
  · exact wrongCount_matches _ _ [test]
  · refine (h.eval test scope).bind fun v => ?_
    rw [Value.isTruthy_renumber]
    split
    · exact .pure rfl
    · exact .pure (congrArg Step.done Value.renumber_nil)
  · refine (h.eval test scope).bind fun v => ?_
    rw [Value.isTruthy_renumber]
    split
    · exact .pure rfl
    · exact .pure rfl
  · exact wrongCount_matches _ _ (test :: yes :: no :: w :: more)

theorem template_matches (who : SpecialForm) (args : List Value) :
    Run.Matches n (Value.renumber (skip n)) (template a who args)
      (template b who (args.map (Value.renumber (skip n)))) := by
  rcases args with _ | ⟨form, _ | ⟨w, more⟩⟩
  · exact wrongCount_matches _ _ []
  · exact h.template form
  · exact wrongCount_matches _ _ (form :: w :: more)

theorem macroExpand_matches (k : Nat) (args : List Value) (scope : Scope) :
    Run.Matches n (Step.renumber (skip n)) (macroExpand a k args scope)
      (macroExpand b k (args.map (Value.renumber (skip n))) (scope.renumber (skip n))) := by
  rcases args with _ | ⟨form, _ | ⟨w, more⟩⟩
  · exact wrongCount_matches _ _ []
  · exact (expand_matches h k form scope).bind fun v => .pure rfl
  · exact wrongCount_matches _ _ (form :: w :: more)

theorem tryCatch_matches (args : List Value) (scope : Scope) :
    Run.Matches n (Step.renumber (skip n)) (tryCatch a args scope)
      (tryCatch b (args.map (Value.renumber (skip n))) (scope.renumber (skip n))) := by
  rcases args with _ | ⟨body, _ | ⟨clause, _ | ⟨w, more⟩⟩⟩
  · exact wrongCount_matches _ _ []
  · exact .pure rfl
  · refine (catchClause_matches clause).bind fun p => ?_
    refine (h.eval body scope).handle (fun v => .pure rfl) fun e => ?_
    refine (newChild_matches scope).bind fun inner => ?_
    refine (Run.Matches.update fun s t hst => ?_).bind fun _ => .pure rfl
    rw [Error.payload_renumber]
    exact hst.define inner p.1 e.payload
  · exact wrongCount_matches _ _ (body :: clause :: w :: more)

theorem evalGlobal_matches (args : List Value) (scope : Scope) :
    Run.Matches n (Step.renumber (skip n)) (evalGlobal a args scope)
      (evalGlobal b (args.map (Value.renumber (skip n))) (scope.renumber (skip n))) := by
  rcases args with _ | ⟨form, _ | ⟨w, more⟩⟩
  · exact wrongCount_matches _ _ []
  · exact (h.eval form scope).bind fun v => .pure rfl
  · exact wrongCount_matches _ _ (form :: w :: more)

/-! ### Steps -/

theorem special_matches (k : Nat) (form : SpecialForm) (args : List Value) (scope : Scope) :
    Run.Matches n (Step.renumber (skip n)) (special a k form args scope)
      (special b k form (args.map (Value.renumber (skip n))) (scope.renumber (skip n))) := by
  cases form with
  | define => exact define_matches h args scope
  | defineMacro => exact defineMacro_matches h args scope
  | bindLocal => exact bindLocal_matches h args scope
  | doInOrder => exact doInOrder_matches h args scope
  | choose => exact choose_matches h args scope
  | function => exact function_matches args scope
  | quote => exact quote_matches args
  | quasiquote => exact (template_matches h _ args).bind fun v => .pure rfl
  | quasiquoteExpand => exact (template_matches h _ args).bind fun v => .pure rfl
  | macroExpand => exact macroExpand_matches h k args scope
  | tryCatch => exact tryCatch_matches h args scope
  | evalGlobal => exact evalGlobal_matches h args scope

theorem invoke_matches (k : Nat) (f : Value) (args : List Value) :
    Run.Matches n (Step.renumber (skip n)) (invoke a k f args)
      (invoke b k (f.renumber (skip n)) (args.map (Value.renumber (skip n)))) := by
  cases f with
  | builtin f =>
    rw [Value.renumber_builtin]
    refine (Builtin.call_matches args (apply_matches h k) h.read f).bind fun v => ?_
    exact .pure rfl
  | closure params body scope isMacro tag =>
    rw [Value.renumber_closure]
    exact (enterClosure_matches _ _ _).bind fun inner => .pure rfl
  | _ => exact notCallable_matches _

theorem stepCall_matches (k : Nat) (head : Value) (args : List Value) (scope : Scope) :
    Run.Matches n (Step.renumber (skip n)) (stepCall a k head args scope)
      (stepCall b k (head.renumber (skip n)) (args.map (Value.renumber (skip n)))
        (scope.renumber (skip n))) := by
  rw [stepCall, stepCall, Value.symbol?_renumber]
  cases head.symbol?.bind SpecialForm.ofName? with
  | some form => exact special_matches h k form args scope
  | none =>
    refine (h.eval head scope).bind fun f => ?_
    exact (evalEach_matches h scope [] args).bind fun args => invoke_matches h k f args

theorem step_matches (k : Nat) (form : Value) (scope : Scope) :
    Run.Matches n (Step.renumber (skip n)) (step a k form scope)
      (step b k (form.renumber (skip n)) (scope.renumber (skip n))) := by
  have hplain (form : Value) :
      Run.Matches n (Step.renumber (skip n)) (do return .done (← evalPlain a form scope))
        (do return .done (← evalPlain b (form.renumber (skip n)) (scope.renumber (skip n)))) :=
    (evalPlain_matches h form scope).bind fun v => .pure rfl
  rw [step, step, Value.call?_renumber]
  cases form.call? with
  | none => exact hplain form
  | some _ =>
    refine (expand_matches h k form scope).bind fun form => ?_
    rw [Value.call?_renumber]
    cases form.call? with
    | none => exact hplain form
    | some p => exact stepCall_matches h k p.1 p.2 scope

theorem loop_matches (k m : Nat) (form : Value) (scope : Scope) :
    Run.Matches n (Value.renumber (skip n)) (loop a k m form scope)
      (loop b k m (form.renumber (skip n)) (scope.renumber (skip n))) := by
  induction m generalizing form scope with
  | zero => exact .unfinished
  | succ m ih =>
    refine (step_matches h k form scope).bind fun p => ?_
    cases p with
    | done v => exact .pure rfl
    | next form scope => exact ih form scope

end Forms

end Eval

/-! ### Evaluation -/

variable {n : FrameId}

theorem readFirst_matches {ρ : FrameId → FrameId} (limit depth : Nat) (text : String) :
    Matches ρ (Value.renumber ρ) (readFirst limit depth text) (readFirst limit depth text) := by
  cases hread : readFirst limit depth text with
  | ok v =>
    obtain ⟨n, us, rest, -, -, hv⟩ := Reader.derives_of_readFirst hread
    exact .of_eq (hv.renumber_eq ρ)
  | error e =>
    refine .error_self ?_
    by_cases htext : tokenize text = []
    · rw [readFirst_of_nil htext] at hread
      cases hread
      rfl
    · rw [readFirst_of_ne_nil htext] at hread
      obtain ⟨cause, rfl⟩ | rfl := Reader.Opened.top.form_error (Dict.map_eq_error hread)
      · rfl
      · rfl

theorem readForm_matches (text : String) :
    Run.Matches n (Value.renumber (skip n)) (readForm text) (readForm text) := by
  refine (Run.Matches.inspect (g := id) fun s t hst => ?_).bind fun p => ?_
  · rw [hst.limit, hst.depth]
    rfl
  · exact .ofExcept (readFirst_matches _ _ text)

theorem expandTemplate_matches (v : Value) :
    Run.Matches n (Value.renumber (skip n)) (expandTemplate v)
      (expandTemplate (v.renumber (skip n))) := by
  refine (Run.Matches.inspect (g := id) fun s t hst => ?_).bind fun p => ?_
  · rw [hst.limit, hst.depth]
    rfl
  · exact .ofExcept (Template.expand_matches _ _ v)

/-- Evaluating a form in a state with one more frame ends the way it does without that frame. -/
theorem eval_matches (k : Nat) (form : Value) (scope : Scope) :
    Run.Matches n (Value.renumber (skip n)) (eval k form scope)
      (eval k (form.renumber (skip n)) (scope.renumber (skip n))) := by
  induction k generalizing form scope with
  | zero => exact .unfinished
  | succ k ih =>
    have hlimited : (NestedCalls.limited k).Matches n (.limited k) :=
      ⟨ih, readForm_matches, expandTemplate_matches⟩
    exact .guarded (Eval.loop_matches hlimited k k form scope)

end Lisp
