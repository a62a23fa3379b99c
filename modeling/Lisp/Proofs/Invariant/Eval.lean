import Lisp.Eval.Basic
import Lisp.Proofs.Invariant.BuiltinCall
import Lisp.Proofs.Invariant.Reading

/-!
# Disciplines of evaluation

A step of evaluation keeps to every lawful discipline that the nested calls keep to, and leads to a
value or to a form and a scope as the discipline has them; nested calls that agree make steps that
agree. By induction on the fuel the same holds of a loop of steps, and of evaluation, whose nested
calls are evaluations again.
-/

namespace Lisp

open Run Shape

variable {W : Type} [Preorder W] {D : Discipline W} {w : W}

/-- Two ways to make the nested calls agree within the discipline. -/
structure NestedCalls.Agree (D : Discipline W) (a b : NestedCalls) : Prop where
  eval : ∀ {w form scope}, D.Value w form → D.entered w scope →
    Run.Agree D w D.Value (a.eval form scope) (b.eval form scope)
  read : ∀ w text, Run.Agree D w D.Value (a.read text) (b.read text)
  template : ∀ {w v}, D.Value w v → Run.Agree D w D.Value (a.template v) (b.template v)

namespace Eval

/-- A step leads to a value, or to a form and a scope, as the discipline has them. -/
def Step.Meets (D : Discipline W) (w : W) : Step → Prop
  | done v => D.Value w v
  | next form scope => D.Value w form ∧ D.entered w scope

variable {a b : NestedCalls} (hD : D.Lawful)
include hD

theorem done_keeps {v : Value} (hv : D.Value w v) :
    KeepsTo D w (Step.Meets D) (Pure.pure (.done v)) :=
  .pure fun _ hw => hD.value_mono hw hv

theorem next_keeps {form : Value} {scope : Scope} (hform : D.Value w form)
    (hscope : D.entered w scope) : KeepsTo D w (Step.Meets D) (Pure.pure (.next form scope)) :=
  .pure fun _ hw => ⟨hD.value_mono hw hform, hD.entered_mono hw hscope⟩

/-- A run that yields a value, which then ends the step. -/
theorem finish_agree {x y : Run Value} (h : Agree D w D.Value x y) :
    Agree D w (Step.Meets D) (do return .done (← x)) (do return .done (← y)) :=
  h.bind fun _ _ _ hv => done_keeps hD hv

omit hD in
theorem bindings_fit {S : Shape} (params : Params) {args : List Value}
    (hargs : ∀ v ∈ args, S.Fits v) : ∀ b ∈ params.bindings args, S.Fits b.2 := by
  intro b hb
  rcases List.mem_append.mp hb with hb | hb
  · exact hargs b.2 (List.of_mem_zip hb).2
  · cases hrest : params.rest with
    | none =>
      rw [hrest] at hb
      cases hb
    | some rest =>
      rw [hrest] at hb
      cases List.mem_singleton.mp hb
      exact fits_list.mpr fun v hv => hargs v (List.mem_of_mem_drop hv)

theorem enterClosure_keeps (params : Params) {scope : Scope} (hscope : D.captured w scope)
    {args : List Value} (hargs : D.Values w args) :
    KeepsTo D w D.entered (enterClosure params scope args) := by
  have hcheck : (D.shape w).Answers (fun _ => True)
      (params.arity.check "closure" args.length) := by
    unfold Arity.check
    split
    · trivial
    · exact Fits.leaf trivial
  refine (Agree.ofExcept hD hcheck).bind fun w₁ _ hw₁ _ => .modify fun w₂ s hw₂ hs => ?_
  have hle : w ≤ w₂ := le_trans hw₁ hw₂
  obtain ⟨w₃, hw₃, hchild, hentered⟩ := hs.newChild hD (hD.captured_mono hle hscope)
  have hfit := bindings_fit params (hD.values_mono (le_trans hle hw₃) hargs)
  exact ⟨w₃, hw₃, hchild.bindAll hD hentered hfit, hentered⟩

omit hD in
theorem notCallable_keeps {α : Type} {Q : W → α → Prop} (v : Value) :
    KeepsTo D w Q (notCallable v) := by
  have hshown : KeepsTo D w (fun _ _ => True) (.shown .readable v) :=
    .printing fun _ _ _ _ => trivial
  exact hshown.bind fun _ _ _ _ => .raise_leaf trivial

section Calls

variable (h : NestedCalls.Agree D a b)
include h

theorem apply_agree (k : Nat) {f : Value} {args : List Value} (hf : D.Value w f)
    (hargs : D.Values w args) : Agree D w D.Value (apply a k f args) (apply b k f args) := by
  induction k generalizing w f args with
  | zero => exact .unfinished
  | succ k ih =>
    cases f with
    | builtin b => exact Builtin.call_agree hD hargs (fun hf hargs => ih hf hargs) h.read b
    | closure params body scope isMacro tag =>
      obtain ⟨hscope, hbody, -⟩ := fits_closure.mp hf
      refine (enterClosure_keeps hD params hscope hargs).bind fun w' inner hw hinner => ?_
      exact h.eval (hD.value_mono hw hbody) hinner
    | _ => exact notCallable_keeps _

omit [Preorder W] hD h in
/-- The parts of a macro call are as the invariant has them. -/
theorem macroCall?_fits {s : State} (hs : D.Holds w s) {scope : Scope} {form : Value}
    (hform : D.Value w form) {c : MacroCall}
    (hc : macroCall? s scope form = some c) :
    D.Value w c.body ∧ D.captured w c.scope ∧
      D.Values w c.args := by
  unfold macroCall? at hc
  split at hc
  next name args tag =>
    split at hc
    next params body inner tag' hlookup =>
      cases hc
      obtain ⟨hscope, hbody, -⟩ := fits_closure.mp (hs.lookup hlookup)
      exact ⟨hbody, hscope, (List.forall_mem_cons.mp (fits_seq.mp hform).1).2⟩
    next => cases hc
  next => cases hc

theorem expand_agree (k : Nat) {form : Value} {scope : Scope} (hform : D.Value w form)
    (hscope : D.entered w scope) : Agree D w D.Value (expand a k form scope)
      (expand b k form scope) := by
  induction k generalizing w form with
  | zero => exact .unfinished
  | succ k ih =>
    have hcall : KeepsTo D w (fun w' c? => ∀ c, c? = some c →
        D.Value w' c.body ∧ D.captured w' c.scope ∧ D.Values w' c.args)
        (.inspect (macroCall? · scope form)) :=
      .inspect fun _ _ hw hs _ hc => macroCall?_fits hs (hD.value_mono hw hform) hc
    refine hcall.bind fun w' c? hw hc => ?_
    cases c? with
    | none => exact .pure_value hD (hD.value_mono hw hform)
    | some c =>
      obtain ⟨hbody, hcaptured, hargs⟩ := hc c rfl
      refine (enterClosure_keeps hD c.params hcaptured hargs).bind fun w₁ inner hw₁ hinner => ?_
      refine (h.eval (hD.value_mono hw₁ hbody) hinner).bind fun w₂ expansion hw₂ hexp => ?_
      exact ih hexp (hD.entered_mono (le_trans hw (le_trans hw₁ hw₂)) hscope)

end Calls

section Forms

variable (h : NestedCalls.Agree D a b) {args : List Value} {scope : Scope}
include h

theorem evalEach_agree (hscope : D.entered w scope) {done forms : List Value}
    (hdone : D.Values w done) (hforms : D.Values w forms) :
    Agree D w D.Values (evalEach a scope done forms) (evalEach b scope done forms) := by
  induction forms generalizing w done with
  | nil =>
    refine .pure fun w' hw v hv => ?_
    exact hD.value_mono hw (hdone v (List.mem_reverse.mp hv))
  | cons form forms ih =>
    obtain ⟨hform, hforms⟩ := List.forall_mem_cons.mp hforms
    refine (h.eval hform hscope).bind fun w' v hw hv => ?_
    exact ih (hD.entered_mono hw hscope)
      (List.forall_mem_cons.mpr ⟨hv, hD.values_mono hw hdone⟩) (hD.values_mono hw hforms)

theorem evalEntries_agree (hscope : D.entered w scope) {done entries : Dict}
    (hdone : (D.shape w).FitsDict done)
    (hentries : ∀ e ∈ entries, D.Value w e.1 ∧ D.Value w e.2) :
    Agree D w (fun w' => (D.shape w').FitsDict) (evalEntries a scope done entries)
      (evalEntries b scope done entries) := by
  induction entries generalizing w done with
  | nil => exact .pure fun w' hw => hD.dict_mono hw hdone
  | cons e entries ih =>
    obtain ⟨he, hentries⟩ := List.forall_mem_cons.mp hentries
    refine (h.eval he.2 hscope).bind fun w' v hw hv => ?_
    have hinsert := answers_insert (hD.shape w') (hD.dict_mono hw hdone) (hD.value_mono hw he.1) hv
    refine (Agree.ofExcept hD hinsert).bind fun w₁ done hw₁ hdone => ?_
    have hle := le_trans hw hw₁
    refine ih (hD.entered_mono hle hscope) (hD.dict_mono hw₁ hdone) fun e he => ?_
    exact ⟨hD.value_mono hle (hentries e he).1, hD.value_mono hle (hentries e he).2⟩

theorem evalPlain_agree {form : Value} (hform : D.Value w form) (hscope : D.entered w scope) :
    Agree D w D.Value (evalPlain a form scope) (evalPlain b form scope) := by
  cases form with
  | symbol name =>
    have hlookup : KeepsTo D w (fun w' v? => ∀ v, v? = some v → D.Value w' v)
        (.inspect (·.lookup scope name)) :=
      .inspect fun _ _ _ hs _ hv => hs.lookup hv
    refine hlookup.bind fun w' v? hw hv => ?_
    cases v? with
    | none => exact .raise_leaf trivial
    | some v => exact .pure_value hD (hv v rfl)
  | seq kind items tag =>
    cases kind with
    | list => exact .pure_value hD hform
    | vector =>
      refine (evalEach_agree hD h hscope (List.forall_mem_nil _) (fits_seq.mp hform).1).bind ?_
      exact fun w' vs _ hvs => .pure_value hD (fits_vector.mpr hvs)
  | map entries tag =>
    have hnil : (D.shape w).FitsDict [] := ⟨(hD.shape w).nil, nofun⟩
    refine (evalEntries_agree hD h hscope hnil (fits_map.mp hform).1.2).bind fun w' d _ hd => ?_
    exact .pure_value hD (fits_dict.mpr hd)
  | _ => exact .pure_value hD hform

omit hD h in
theorem answers_symbolOf {S : Shape} (who : String) (v : Value) :
    S.Answers (fun _ => True) (symbolOf who v) := by
  unfold symbolOf
  split
  · trivial
  · exact Fits.leaf trivial

theorem bindEach_agree {w : W} (hscope : D.entered w scope) {bindings : List Value}
    (hbindings : D.Values w bindings) :
    Agree D w (fun _ _ => True) (bindEach a scope bindings) (bindEach b scope bindings) := by
  match bindings, hbindings with
  | [], _ | [_], _ => exact .pure fun _ _ => trivial
  | name :: form :: bindings, hbindings =>
    obtain ⟨hform, hrest⟩ := List.forall_mem_cons.mp (List.forall_mem_cons.mp hbindings).2
    refine (Agree.ofExcept hD (answers_symbolOf _ name)).bind fun w' _ hw _ => ?_
    have hform := hD.value_mono hw hform
    refine (h.eval hform (hD.entered_mono hw hscope)).bind fun w₁ v hw₁ hv => ?_
    have hscope := hD.entered_mono (le_trans hw hw₁) hscope
    refine (Agree.define hD hscope _ hv).bind fun w₂ _ hw₂ _ => ?_
    exact bindEach_agree (hD.entered_mono hw₂ hscope)
      (hD.values_mono (le_trans hw (le_trans hw₁ hw₂)) hrest)

variable (hargs : D.Values w args) (hscope : D.entered w scope)
include hargs hscope

theorem define_agree : Agree D w (Step.Meets D) (define a args scope) (define b args scope) := by
  unfold define
  split
  next name form =>
    have hform := hargs form (.tail _ (.head _))
    refine (Agree.ofExcept hD (answers_symbolOf _ _)).bind fun w' _ hw _ => ?_
    have hscope := hD.entered_mono hw hscope
    refine (h.eval (hD.value_mono hw hform) hscope).bind fun w₁ v hw₁ hv => ?_
    refine (Agree.define hD (hD.entered_mono hw₁ hscope) _ hv).bind fun w₂ _ hw₂ _ => ?_
    exact done_keeps hD (hD.value_mono hw₂ hv)
  next => exact .raise_leaf trivial

theorem defineMacro_agree :
    Agree D w (Step.Meets D) (defineMacro a args scope) (defineMacro b args scope) := by
  unfold defineMacro
  split
  next name form =>
    have hform := hargs form (.tail _ (.head _))
    refine (Agree.ofExcept hD (answers_symbolOf _ _)).bind fun w' _ hw _ => ?_
    have hscope := hD.entered_mono hw hscope
    refine (h.eval (hD.value_mono hw hform) hscope).bind fun w₁ v hw₁ hv => ?_
    split
    next params body inner isMacro tag =>
      have hmacro : D.Value w₁ (.closure params body inner true tag) :=
        fits_closure.mpr (fits_closure.mp hv)
      refine (Agree.define hD (hD.entered_mono hw₁ hscope) _ hmacro).bind fun w₂ _ hw₂ _ => ?_
      exact done_keeps hD (hD.value_mono hw₂ hmacro)
    next => exact .raise_leaf trivial
  next => exact .raise_leaf trivial

theorem bindLocal_agree :
    Agree D w (Step.Meets D) (bindLocal a args scope) (bindLocal b args scope) := by
  unfold bindLocal
  split
  next bindings body =>
    split
    next => exact .raise_leaf trivial
    next items hitems =>
      split
      · refine (Agree.newChild hD (hD.captured_of_entered hscope)).bind fun w' inner hw hinner => ?_
        have hvalues : D.Values w items := by
          have hbindings := hargs bindings (.head _)
          cases bindings with
          | seq kind items' tag =>
            cases hitems
            exact (fits_seq.mp hbindings).1
          | _ => cases hitems
        refine (bindEach_agree hD h hinner (hD.values_mono hw hvalues)).bind fun w₁ _ hw₁ _ => ?_
        have hbody := hargs body (.tail _ (.head _))
        exact next_keeps hD (hD.value_mono (le_trans hw hw₁) hbody)
          (hD.entered_mono hw₁ hinner)
      · exact .raise_leaf trivial
  next => exact .raise_leaf trivial

theorem doInOrder_agree :
    Agree D w (Step.Meets D) (doInOrder a args scope) (doInOrder b args scope) := by
  induction args generalizing w with
  | nil => exact .raise_leaf trivial
  | cons form forms ih =>
    obtain ⟨hform, hforms⟩ := List.forall_mem_cons.mp hargs
    cases forms with
    | nil => exact next_keeps hD hform hscope
    | cons form' forms =>
      refine (h.eval hform hscope).bind fun w' _ hw _ => ?_
      exact ih (hD.values_mono hw hforms) (hD.entered_mono hw hscope)

theorem choose_agree : Agree D w (Step.Meets D) (choose a args scope) (choose b args scope) := by
  unfold choose
  split
  next test yes =>
    refine (h.eval (hargs test (.head _)) hscope).bind fun w' v hw _ => ?_
    have hargs := hD.values_mono hw hargs
    have hscope := hD.entered_mono hw hscope
    split
    · exact next_keeps hD (hargs yes (.tail _ (.head _))) hscope
    · exact done_keeps hD (.leaf trivial)
  next test yes no =>
    refine (h.eval (hargs test (.head _)) hscope).bind fun w' v hw _ => ?_
    have hargs := hD.values_mono hw hargs
    have hscope := hD.entered_mono hw hscope
    split
    · exact next_keeps hD (hargs yes (.tail _ (.head _))) hscope
    · exact next_keeps hD (hargs no (.tail _ (.tail _ (.head _)))) hscope
  next => exact .raise_leaf trivial

omit hD hscope in
theorem template_agree (who : SpecialForm) :
    Agree D w D.Value (template a who args) (template b who args) := by
  unfold template
  split
  next form => exact h.template (hargs form (.head _))
  next => exact .raise_leaf trivial

theorem macroExpand_agree (k : Nat) :
    Agree D w (Step.Meets D) (macroExpand a k args scope) (macroExpand b k args scope) := by
  unfold macroExpand
  split
  next form => exact finish_agree hD (expand_agree hD h k (hargs form (.head _)) hscope)
  next => exact .raise_leaf trivial

omit h hargs hscope in
theorem catchClause_keeps {clause : Value} (hclause : D.Value w clause) :
    KeepsTo D w (fun w' p => D.Value w' p.2) (catchClause clause) := by
  unfold catchClause
  split
  next args tag =>
    split
    next name handler =>
      refine (Agree.ofExcept hD (answers_symbolOf _ _)).bind fun w' _ hw _ => .pure fun k hk => ?_
      exact hD.value_mono (le_trans hw hk)
        ((fits_seq.mp hclause).1 handler (.tail _ (.tail _ (.head _))))
    next => exact .raise_leaf trivial
  next =>
    have hshown : KeepsTo D w (fun _ _ => True) (.shown .readable clause) :=
      .printing fun _ _ _ _ => trivial
    exact hshown.bind fun _ _ _ _ => .raise_leaf trivial

theorem tryCatch_agree :
    Agree D w (Step.Meets D) (tryCatch a args scope) (tryCatch b args scope) := by
  unfold tryCatch
  split
  next body => exact next_keeps hD (hargs body (.head _)) hscope
  next body clause =>
    refine (catchClause_keeps hD (hargs clause (.tail _ (.head _)))).bind fun w' p hw hhandler => ?_
    have hscope := hD.entered_mono hw hscope
    refine (h.eval (hD.value_mono hw (hargs body (.head _))) hscope).handle ?_ ?_
    · exact fun w' v _ hv => done_keeps hD hv
    · intro w₁ e hw₁ he
      have hscope := hD.entered_mono hw₁ hscope
      refine (Agree.newChild hD (hD.captured_of_entered hscope)).bind fun w₂ inner hw₂ hinner => ?_
      refine (Agree.define hD hinner _ (hD.value_mono hw₂ he)).bind fun w₃ _ hw₃ _ => ?_
      exact next_keeps hD (hD.value_mono (le_trans hw₁ (le_trans hw₂ hw₃)) hhandler)
        (hD.entered_mono hw₃ hinner)
  next => exact .raise_leaf trivial

theorem evalGlobal_agree :
    Agree D w (Step.Meets D) (evalGlobal a args scope) (evalGlobal b args scope) := by
  unfold evalGlobal
  split
  next form =>
    refine (h.eval (hargs form (.head _)) hscope).bind fun w' v hw hv => ?_
    exact next_keeps hD hv (hD.entered_outermost (hD.entered_mono hw hscope))
  next => exact .raise_leaf trivial

omit hD h hargs hscope in
theorem answers_parse {S : Shape} (forms : List Value) :
    S.Answers (fun _ => True) (Params.parse forms) := by
  have honto (fixed : List String) : S.Answers (fun _ => True) (Params.parseOnto fixed forms) := by
    induction forms generalizing fixed with
    | nil => trivial
    | cons v vs ih =>
      unfold Params.parseOnto
      split
      · exact Fits.leaf trivial
      · split
        · split
          · trivial
          · exact Fits.leaf trivial
          · exact Fits.leaf trivial
        · exact ih _
  exact honto []

omit h in
theorem function_keeps : KeepsTo D w (Step.Meets D) (function args scope) := by
  unfold function
  split
  next params body =>
    split
    next => exact .raise_leaf trivial
    next forms _ =>
      refine (Agree.ofExcept hD (answers_parse forms)).bind fun w' params hw _ => ?_
      refine done_keeps hD (fits_closure.mpr ⟨?_, ?_, .leaf trivial⟩)
      · exact hD.captured_of_entered (hD.entered_mono hw hscope)
      · exact hD.value_mono hw (hargs body (.tail _ (.head _)))
  next => exact .raise_leaf trivial

omit h hscope in
theorem quote_keeps : KeepsTo D w (Step.Meets D) (quote args) := by
  unfold quote
  split
  next form => exact done_keeps hD (hargs form (.head _))
  next => exact .raise_leaf trivial

theorem special_agree (k : Nat) (form : SpecialForm) :
    Agree D w (Step.Meets D) (special a k form args scope) (special b k form args scope) := by
  cases form with
  | define => exact define_agree hD h hargs hscope
  | defineMacro => exact defineMacro_agree hD h hargs hscope
  | bindLocal => exact bindLocal_agree hD h hargs hscope
  | doInOrder => exact doInOrder_agree hD h hargs hscope
  | choose => exact choose_agree hD h hargs hscope
  | function => exact function_keeps hD hargs hscope
  | quote => exact quote_keeps hD hargs
  | quasiquote =>
    refine (template_agree h hargs .quasiquote).bind fun w' form hw hform => ?_
    exact next_keeps hD hform (hD.entered_mono hw hscope)
  | quasiquoteExpand => exact finish_agree hD (template_agree h hargs .quasiquoteExpand)
  | macroExpand => exact macroExpand_agree hD h hargs hscope k
  | tryCatch => exact tryCatch_agree hD h hargs hscope
  | evalGlobal => exact evalGlobal_agree hD h hargs hscope

omit hscope in
theorem invoke_agree (k : Nat) {f : Value} (hf : D.Value w f) :
    Agree D w (Step.Meets D) (invoke a k f args) (invoke b k f args) := by
  cases f with
  | builtin b =>
    exact finish_agree hD
      (Builtin.call_agree hD hargs (fun hf hargs => apply_agree hD h k hf hargs) h.read b)
  | closure params body scope isMacro tag =>
    obtain ⟨hscope, hbody, -⟩ := fits_closure.mp hf
    refine (enterClosure_keeps hD params hscope hargs).bind fun w' inner hw hinner => ?_
    exact next_keeps hD (hD.value_mono hw hbody) hinner
  | _ => exact notCallable_keeps _

theorem stepCall_agree (k : Nat) {head : Value} (hhead : D.Value w head) :
    Agree D w (Step.Meets D) (stepCall a k head args scope) (stepCall b k head args scope) := by
  unfold stepCall
  split
  · exact special_agree hD h hargs hscope k _
  · refine (h.eval hhead hscope).bind fun w' f hw hf => ?_
    have hscope := hD.entered_mono hw hscope
    refine (evalEach_agree hD h hscope (List.forall_mem_nil _) (hD.values_mono hw hargs)).bind ?_
    exact fun w₁ vs hw₁ hvs => invoke_agree hD h hvs k (hD.value_mono hw₁ hf)

omit hD h hargs hscope in
theorem call?_fits {S : Shape} {form : Value} (hform : S.Fits form) {c : Value × List Value}
    (hc : form.call? = some c) : S.Fits c.1 ∧ ∀ v ∈ c.2, S.Fits v := by
  unfold Value.call? at hc
  split at hc
  next head args tag =>
    cases hc
    exact List.forall_mem_cons.mp (fits_seq.mp hform).1
  next => cases hc

omit hargs in
/-- One step keeps the invariant and leads to where it holds of what comes next. -/
theorem step_agree (k : Nat) {form : Value} (hform : D.Value w form) :
    Agree D w (Step.Meets D) (step a k form scope) (step b k form scope) := by
  unfold step
  split
  · exact finish_agree hD (evalPlain_agree hD h hform hscope)
  · refine (expand_agree hD h k hform hscope).bind fun w' form hw hform => ?_
    have hscope := hD.entered_mono hw hscope
    split
    next => exact finish_agree hD (evalPlain_agree hD h hform hscope)
    next head args hc =>
      obtain ⟨hhead, hargs⟩ := call?_fits hform hc
      exact stepCall_agree hD h hargs hscope k hhead

omit hargs in
/-- A loop of steps keeps the invariant. -/
theorem loop_agree (k l : Nat) {form : Value} (hform : D.Value w form) :
    Agree D w D.Value (loop a k l form scope) (loop b k l form scope) := by
  induction l generalizing w form scope with
  | zero => exact .unfinished
  | succ l ih =>
    refine (step_agree hD h hscope k hform).bind fun w' next hw hnext => ?_
    cases next with
    | done v => exact .pure_value hD hnext
    | next form scope => exact ih hnext.2 hnext.1

end Forms

end Eval

theorem Run.Agree.readForm (hD : D.Lawful) (text : String) :
    KeepsTo D w D.Value (Lisp.readForm text) := by
  intro v s hv hs
  rw [readForm_apply]
  exact ofExcept_value hD (answers_readFirst (hD.shape v) _ _ text) v s (le_refl v) hs

theorem Run.Agree.expandTemplate (hD : D.Lawful) {v : Value} (hv : D.Value w v) :
    KeepsTo D w D.Value (Lisp.expandTemplate v) := by
  intro u s hu hs
  rw [expandTemplate_apply]
  exact ofExcept_value hD (Template.answers_expand _ _ (hD.value_mono hu hv)) u s (le_refl u) hs

/-- Nested calls agree if those that evaluate do; the others keep to every lawful discipline. -/
theorem NestedCalls.Agree.of_eval (hD : D.Lawful) {x y : Value → Scope → Run Value}
    (h : ∀ {w form scope}, D.Value w form → D.entered w scope →
      Run.Agree D w D.Value (x form scope) (y form scope)) :
    NestedCalls.Agree D ⟨x, readForm, expandTemplate⟩ ⟨y, readForm, expandTemplate⟩ where
  eval := h
  read _ text := .readForm hD text
  template hv := .expandTemplate hD hv

/-- Evaluation keeps to every lawful discipline. -/
theorem eval_keepsTo (hD : D.Lawful) (k : Nat) {form : Value} {scope : Scope}
    (hform : D.Value w form) (hscope : D.entered w scope) :
    Run.KeepsTo D w D.Value (eval k form scope) := by
  induction k generalizing w form scope with
  | zero => exact .unfinished
  | succ k ih => exact .guarded (Eval.loop_agree hD (.of_eval hD ih) hscope k k hform)

theorem NestedCalls.limited_agree (hD : D.Lawful) (k : Nat) :
    NestedCalls.Agree D (.limited k) (.limited k) :=
  .of_eval hD (eval_keepsTo hD k)

/-! ### Invariants of evaluation -/

section Invariant

variable {I : Invariant} (hI : I.Lawful) {n : Nat}

/-- The nested calls keep the invariant. -/
def NestedCalls.Keeps (I : Invariant) (nested : NestedCalls) : Prop :=
  NestedCalls.Agree I.discipline nested nested

include hI

theorem NestedCalls.limited_keeps (k : Nat) : (NestedCalls.limited k).Keeps I :=
  limited_agree hI.discipline k

/-- Evaluation keeps every lawful invariant. -/
theorem eval_keeps (k : Nat) {form : Value} {scope : Scope} (hform : I.Value n form)
    (hscope : I.entered n scope) : Run.Keeps I n I.Value (eval k form scope) :=
  (eval_keepsTo hI.discipline k hform hscope).keeps

variable {nested : NestedCalls} (h : nested.Keeps I)
include h

theorem Eval.apply_keeps (k : Nat) {f : Value} {args : List Value} (hf : I.Value n f)
    (hargs : I.Values n args) : Run.Keeps I n I.Value (apply nested k f args) :=
  (apply_agree hI.discipline h k hf hargs).keeps

theorem Eval.expand_keeps (k : Nat) {form : Value} {scope : Scope} (hform : I.Value n form)
    (hscope : I.entered n scope) : Run.Keeps I n I.Value (expand nested k form scope) :=
  (expand_agree hI.discipline h k hform hscope).keeps

end Invariant

end Lisp
