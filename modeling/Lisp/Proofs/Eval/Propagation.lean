import Lisp.Proofs.Eval.Laws
import Lisp.Proofs.Eval.MacroExpansion
import Lisp.Proofs.State.Bindings

/-!
# Where errors go

Whatever is under way when an evaluation fails fails with it, as long as it does not handle errors:
nothing else is done on the way out, and only the count of nested calls goes back. The places in
which one thing is under way in another are listed once (`Operand`, `Enters`), with what has to have
been done before one of them is reached. An error passes each of them unchanged
(`Operand.fails`, `Enters.fails`), and so it passes any number of them (`Encloses.fails`). Only the
first operand of a `try*` with a `catch*` clause is not among them. An error there is bound in a new
frame, in which the handler is run.

Nested calls are refused here as they are when a program is run, since that is one of the errors.
What ends in an error then does so with any more fuel (`Settles`), which lets fuel for the parts be
put together.
-/

namespace Lisp

open Run Eval

open Fueled (Refining)

/-! ### What is under way -/

/-- Something that is under way in the course of an evaluation. -/
inductive Activity
  /-- Evaluating a form, as one more nested call. -/
  | eval (form : Value) (scope : Scope)
  /-- Evaluating a form in the place of the one that it ends. -/
  | run (form : Value) (scope : Scope)
  /-- Expanding the macro calls at the head of a form. -/
  | expand (form : Value) (scope : Scope)
  /-- Calling a function in the place of the form that the call ends. -/
  | call (f : Value) (args : List Value)
  /-- Calling a function from a built-in one. -/
  | apply (f : Value) (args : List Value)

namespace Activity

/-- What is run. -/
def exec : Activity → Fueled Value
  | eval form scope => fun nested _ => nested.eval form scope
  | run form scope => fun nested n => loop nested n n form scope
  | expand form scope => fun nested n => Eval.expand nested n form scope
  | call f args => fun nested n => invoke nested n f args >>= Step.proceed (loop nested n n)
  | apply f args => fun nested n => Eval.apply nested n f args

/-- With fuel enough the activity ends in `o`; nested calls may be refused on the way. -/
def EndsIn (A : Activity) (s : State) (o : Outcome Value) : Prop :=
  Ends (fun n => A.exec (.limited n) n) s o

/-- The forms evaluate to these values, one after the other. -/
abbrev EvaluateTo (forms : List Value) (scope : Scope) (s : State) (vs : List Value) (t : State) :
    Prop :=
  Each (fun form => (eval form scope).EndsIn) forms s (.done vs t)

/-- The bindings of a `let*` are made in a scope. -/
inductive Binds (scope : Scope) : List Value → State → State → Prop
  | nil {s : State} : Binds scope [] s s
  | cons {name : String} {form v : Value} {bindings : List Value} {s t u : State} :
      (eval form scope).EndsIn s (.done v t) → Binds scope bindings (t.define scope name v) u →
        Binds scope (.symbol name :: form :: bindings) s u

/-- The values of these entries are evaluated and put into a map. -/
inductive Fills (scope : Scope) : Dict → List (Value × Value) → State → Dict → State → Prop
  | nil {d : Dict} {s : State} : Fills scope d [] s d s
  | cons {d d' d'' : Dict} {key form v : Value} {entries : List (Value × Value)} {s t u : State} :
      (eval form scope).EndsIn s (.done v t) → d.insert key v = .ok d' →
        Fills scope d' entries t d'' u → Fills scope d ((key, form) :: entries) s d'' u

/-- What a special form comes to when what stands in front of it has been evaluated. -/
inductive Operand (scope : Scope) (s : State) :
    SpecialForm → List Value → Activity → State → Prop
  | define (name : String) (form : Value) :
      Operand scope s .define [.symbol name, form] (eval form scope) s
  | defineMacro (name : String) (form : Value) :
      Operand scope s .defineMacro [.symbol name, form] (eval form scope) s
  | binding {kind : SeqKind} {before after : List Value} {name : String} {form tag body : Value}
      {t : State} : Binds (s.newChild scope).1 before (s.newChild scope).2 t →
        after.length % 2 = 0 →
          Operand scope s .bindLocal
            [.seq kind (before ++ .symbol name :: form :: after) tag, body]
            (eval form (s.newChild scope).1) t
  | bound {kind : SeqKind} {bindings : List Value} {tag body : Value} {t : State} :
      Binds (s.newChild scope).1 bindings (s.newChild scope).2 t →
        Operand scope s .bindLocal [.seq kind bindings tag, body] (run body (s.newChild scope).1) t
  | inOrder {before after vs : List Value} {form : Value} {t : State} :
      EvaluateTo before scope s vs t → after ≠ [] →
        Operand scope s .doInOrder (before ++ form :: after) (eval form scope) t
  | last {before vs : List Value} {form : Value} {t : State} : EvaluateTo before scope s vs t →
      Operand scope s .doInOrder (before ++ [form]) (run form scope) t
  | test {test yes : Value} (no : Option Value) :
      Operand scope s .choose (test :: yes :: no.toList) (eval test scope) s
  | yes {test yes v : Value} (no : Option Value) {t : State} :
      (eval test scope).EndsIn s (.done v t) → v.isTruthy = true →
        Operand scope s .choose (test :: yes :: no.toList) (run yes scope) t
  | no {test yes no v : Value} {t : State} :
      (eval test scope).EndsIn s (.done v t) → v.isTruthy = false →
        Operand scope s .choose [test, yes, no] (run no scope) t
  | template {form x : Value} {t : State} : expandTemplate form s = .done x t →
      Operand scope s .quasiquote [form] (run x scope) t
  | macroExpand (form : Value) : Operand scope s .macroExpand [form] (expand form scope) s
  | evalOperand (form : Value) : Operand scope s .evalGlobal [form] (eval form scope) s
  | evalValue {form x : Value} {t : State} : (eval form scope).EndsIn s (.done x t) →
      Operand scope s .evalGlobal [form] (run x scope.outermost) t
  | tryBody (body : Value) : Operand scope s .tryCatch [body] (run body scope) s
  | handler {body handler tag : Value} {name : String} {e : Error} {t : State} :
      (eval body scope).EndsIn s (.failed e t) →
        Operand scope s .tryCatch [body, .seq .list [.symbol "catch*", .symbol name, handler] tag]
          (run handler (t.newChild scope).1)
          ((t.newChild scope).2.define (t.newChild scope).1 name e.payload)

/-- What an activity comes to when what stands in front of it has been done. -/
inductive Enters : Activity → State → Activity → State → Prop
  | expansion (form : Value) (scope : Scope) (s : State) :
      Enters (run form scope) s (expand form scope) s
  | expanded {form x : Value} {scope : Scope} {s t : State} :
      (expand form scope).EndsIn s (.done x t) → Enters (run form scope) s (run x scope) t
  | macroBody {form : Value} {scope inner : Scope} {c : MacroCall} {s t : State} :
      macroCall? s scope form = some c → enterClosure c.params c.scope c.args s = .done inner t →
        Enters (expand form scope) s (eval c.body inner) t
  | expandedOnce {form x : Value} {scope inner : Scope} {c : MacroCall} {s t u : State} :
      macroCall? s scope form = some c → enterClosure c.params c.scope c.args s = .done inner t →
        (eval c.body inner).EndsIn t (.done x u) →
          Enters (expand form scope) s (expand x scope) u
  | element {before after vs : List Value} {form tag : Value} {scope : Scope} {s t : State} :
      EvaluateTo before scope s vs t →
        Enters (run (.seq .vector (before ++ form :: after) tag) scope) s (eval form scope) t
  | mapValue {before after : List (Value × Value)} {key form tag : Value} {scope : Scope} {d : Dict}
      {s t : State} : Fills scope [] before s d t →
        Enters (run (.map (before ++ (key, form) :: after) tag) scope) s (eval form scope) t
  | head {head tag : Value} {args : List Value} {scope : Scope} {s : State} :
      macroCall? s scope (.seq .list (head :: args) tag) = none →
        head.symbol?.bind SpecialForm.ofName? = none →
          Enters (run (.seq .list (head :: args) tag) scope) s (eval head scope) s
  | argument {head f form tag : Value} {before after vs : List Value} {scope : Scope}
      {s t u : State} : macroCall? s scope (.seq .list (head :: (before ++ form :: after)) tag) =
        none → head.symbol?.bind SpecialForm.ofName? = none →
          (eval head scope).EndsIn s (.done f t) → EvaluateTo before scope t vs u →
            Enters (run (.seq .list (head :: (before ++ form :: after)) tag) scope) s
              (eval form scope) u
  | function {head f tag : Value} {args vs : List Value} {scope : Scope} {s t u : State} :
      macroCall? s scope (.seq .list (head :: args) tag) = none →
        head.symbol?.bind SpecialForm.ofName? = none → (eval head scope).EndsIn s (.done f t) →
          EvaluateTo args scope t vs u →
            Enters (run (.seq .list (head :: args) tag) scope) s (call f vs) u
  | special {who : SpecialForm} {args : List Value} {tag : Value} {scope : Scope} {s t : State}
      {B : Activity} : macroCall? s scope (.seq .list (.symbol who.name :: args) tag) = none →
        Operand scope s who args B t →
          Enters (run (.seq .list (.symbol who.name :: args) tag) scope) s B t
  | builtin (b : Builtin) (args : List Value) (s : State) :
      Enters (call (.builtin b) args) s (apply (.builtin b) args) s
  | closure {params : Params} {body tag : Value} {outer inner : Scope} {isMacro : Bool}
      {args : List Value} {s t : State} : enterClosure params outer args s = .done inner t →
        Enters (call (.closure params body outer isMacro tag) args) s (run body inner) t
  | applied {params : Params} {body tag : Value} {outer inner : Scope} {isMacro : Bool}
      {args : List Value} {s t : State} : enterClosure params outer args s = .done inner t →
        Enters (apply (.closure params body outer isMacro tag) args) s (eval body inner) t
  | spread (f : Value) (before items : List Value) (kind : SeqKind) (tag : Value) (s : State) :
      Enters (apply (.builtin .apply) (f :: (before ++ [.seq kind items tag]))) s
        (apply f (before ++ items)) s
  | mapped {f xs x : Value} {before after vs : List Value} {s t : State} :
      Builtin.map.itemsOrNil xs = .ok (before ++ x :: after) →
        Each (fun x => (apply f [x]).EndsIn) before s (.done vs t) →
          Enters (apply (.builtin .map) [f, xs]) s (apply f [x]) t
  | swapped (c : CellId) (f : Value) (more : List Value) (s : State) :
      Enters (apply (.builtin .swap) (.atom c :: f :: more)) s
        (apply f (s.content c :: more)) s

/-- One activity is under way inside of another, possibly of a nested call. -/
inductive Encloses : Activity → State → Activity → State → Prop
  | here (A : Activity) (s : State) : Encloses A s A s
  | level {form : Value} {scope : Scope} {s t : State} {B : Activity} : s.depth < s.limit →
      Encloses (run form scope) s.deeper B t → Encloses (eval form scope) s B t
  | enters {A A' B : Activity} {s s' t : State} : A.Enters s A' s' → A'.Encloses s' B t →
      Encloses A s B t

/-! ### Runs with fuel enough -/

theorem refining (A : Activity) : Refining A.exec := by
  cases A with
  | eval form scope => exact .eval form scope
  | run form scope => exact .loop form scope
  | expand form scope => exact .expand form scope
  | call f args => exact .invoke f args
  | apply f args => exact .apply f args

end Activity

section Settles

variable {α β : Type} {x y : Fueled α} {f : NestedCalls → Nat → α → Run β} {a : α} {e : Error}
  {s t : State} {o : Outcome α} {p : Outcome β}

/-- From some fuel on the run ends in `o`. -/
def Settles (x : Fueled α) (s : State) (o : Outcome α) : Prop :=
  ∃ N, ∀ n ≥ N, x (.limited n) n s = o

theorem Fueled.Refining.growing (hx : Refining x) : Growing fun n => x (.limited n) n :=
  fun _ _ h => hx.refines (limited_refines (eval_refines h)) h

/-- What a run ends in with some fuel, it ends in with more. -/
theorem Fueled.Refining.ends_iff_settles (hx : Refining x) :
    Ends (fun n => x (.limited n) n) s o ↔ o ≠ .unfinished ∧ Settles x s o := by
  constructor
  · intro h
    exact ⟨h.1, h.eq_of_le fun hnm => hx.growing hnm⟩
  · rintro ⟨ho, N, hN⟩
    exact ⟨ho, N, hN N (Nat.le_refl N)⟩

namespace Settles

theorem const (x : Run α) (s : State) : Settles (fun _ _ => x) s (x s) :=
  ⟨0, fun _ _ => rfl⟩

/-- What is not done any more behind an error does not matter. -/
theorem failed_bind (h : Settles x s (.failed e t)) :
    Settles (fun nested n => x nested n >>= f nested n) s (.failed e t) := by
  obtain ⟨N, hN⟩ := h
  refine ⟨N, fun n hn => ?_⟩
  change (x (.limited n) n s).andThen _ = _
  rw [hN n hn]
  rfl

theorem bind (h : Settles x s (.done a t)) (hf : Settles (fun nested n => f nested n a) t p) :
    Settles (fun nested n => x nested n >>= f nested n) s p := by
  obtain ⟨N, hN⟩ := h
  obtain ⟨M, hM⟩ := hf
  refine ⟨max N M, fun n hn => ?_⟩
  change (x (.limited n) n s).andThen _ = _
  rw [hN n (Nat.le_trans (Nat.le_max_left N M) hn)]
  exact hM n (Nat.le_trans (Nat.le_max_right N M) hn)

/-- Runs settle alike from a state in which they are the same with some fuel. -/
theorem congr (h : Settles y s o) (hxy : ∀ nested n, x nested (n + 1) s = y nested (n + 1) s) :
    Settles x s o := by
  obtain ⟨N, hN⟩ := h
  refine ⟨N + 1, fun n hn => ?_⟩
  obtain ⟨n, rfl⟩ := Nat.exists_eq_add_of_le' (Nat.le_of_add_left_le hn)
  exact (hxy _ n).trans (hN (n + 1) (Nat.le_of_add_right_le hn))

/-- A run that takes one unit of fuel less for the same settles alike. -/
theorem succ (hx : Refining x) (h : Settles x s o) (ho : o ≠ .unfinished)
    (hxy : ∀ nested n, x nested (n + 1) s = y nested n s) : Settles y s o := by
  obtain ⟨N, hN⟩ := h
  refine ⟨N, fun n hn => ?_⟩
  have hn : x (.limited n) n s = o := hN n hn
  have hmore := hx.refines (limited_refines (eval_refines (Nat.le_refl n))) (Nat.le_succ n)
  exact (hxy _ n).symm.trans ((hmore.apply_eq (hn ▸ ho)).trans hn)

/-- A run that takes one unit of fuel more for the same settles alike. -/
theorem of_succ (hy : Refining y) (h : Settles y s o) (ho : o ≠ .unfinished)
    (hxy : ∀ nested n, x nested (n + 1) s = y nested n s) : Settles x s o := by
  obtain ⟨N, hN⟩ := h
  refine ⟨N + 1, fun n hn => ?_⟩
  obtain ⟨n, rfl⟩ := Nat.exists_eq_add_of_le' (Nat.le_of_add_left_le hn)
  have hn : y (.limited n) n s = o := hN n (Nat.le_of_add_le_add_right hn)
  have hmore := hy.refines (limited_refines (eval_refines (Nat.le_succ n))) (Nat.le_refl n)
  exact (hxy _ n).trans ((hmore.apply_eq (hn ▸ ho)).trans hn)

end Settles

end Settles

namespace Activity

variable {A B : Activity} {e : Error} {s t S : State} {o : Outcome Value}

theorem endsIn_iff : A.EndsIn s o ↔ o ≠ .unfinished ∧ Settles A.exec s o :=
  A.refining.ends_iff_settles

theorem EndsIn.settles (h : A.EndsIn s o) : Settles A.exec s o :=
  (endsIn_iff.mp h).2

theorem endsIn_failed_iff : A.EndsIn s (.failed e S) ↔ Settles A.exec s (.failed e S) :=
  endsIn_iff.trans (and_iff_right nofun)

variable {form : Value} {scope : Scope}

/-- A form takes its step, and then what that leads to is run. -/
theorem run_endsIn_iff : (run form scope).EndsIn s o ↔
    o ≠ .unfinished ∧
      Settles (fun nested n => Eval.step nested n form scope >>= Step.proceed (loop nested n n)) s
        o := by
  have hcalls {n m : Nat} (h : n ≤ m) := limited_refines (eval_refines h)
  have hstep := (Refining.step form scope).bind Refining.proceed
  refine Iff.trans ⟨fun h => ?_, fun h => ?_⟩ hstep.ends_iff_settles
  · exact h.of_refines fun n => ⟨n, loop_refines_step hcalls n⟩
  · exact h.of_refines fun n => ⟨n + 1, step_refines_loop hcalls n⟩

/-- A form that is no macro call is evaluated as its shape says. -/
theorem run_endsIn_iff_finish (h : macroCall? s scope form = none) :
    (run form scope).EndsIn s o ↔ o ≠ .unfinished ∧
      Settles (fun nested n => finish nested n form scope >>= Step.proceed (loop nested n n)) s
        o := by
  have hfinish (nested : NestedCalls) (n : Nat) :
      (Eval.step nested (n + 1) form scope >>= Step.proceed (loop nested (n + 1) (n + 1))) s =
        (finish nested (n + 1) form scope >>= Step.proceed (loop nested (n + 1) (n + 1))) s := by
    rw [step_eq_finish, bind_assoc, bind_apply, expand_of_not_macro h]
    rfl
  rw [run_endsIn_iff]
  refine and_congr_right fun _ => ⟨fun h => h.congr fun nested n => ?_, fun h => h.congr hfinish⟩
  exact (hfinish nested n).symm

theorem run_special_endsIn_iff (who : SpecialForm) {args : List Value} {tag : Value}
    (h : macroCall? s scope (.seq .list (.symbol who.name :: args) tag) = none) :
    (run (.seq .list (.symbol who.name :: args) tag) scope).EndsIn s o ↔ o ≠ .unfinished ∧
      Settles (fun nested n => Direct.special nested (loop nested n n) n who args scope) s o := by
  rw [run_endsIn_iff_finish h]
  simp only [finish, Value.call?, stepCall_special, ← Direct.special_eq]

/-! ### Parts in front -/

section Parts

variable {γ : Type} {p : Outcome γ}

/-- What is collected from a list goes on behind the elements that have been done. -/
theorem settles_each {α : Type} {K : α → Activity} {collect : List Value → List α → Fueled γ}
    (hcons : ∀ vs a as, collect vs (a :: as) =
      fun nested n => (K a).exec nested n >>= fun v => collect (v :: vs) as nested n)
    {before after : List α} (vs : List Value) {ws : List Value}
    (h : Each (fun a => (K a).EndsIn) before s (.done ws t))
    (hafter : Settles (collect (ws.reverse ++ vs) after) t p) :
    Settles (collect vs (before ++ after)) s p := by
  induction before generalizing s vs ws with
  | nil =>
    cases h
    exact hafter
  | cons a before ih =>
    obtain ⟨w, ws, u, rfl, ha, hbefore⟩ := each_cons_done_iff.mp h
    rw [List.reverse_cons, List.append_assoc] at hafter
    rw [List.cons_append, hcons]
    exact ha.settles.bind (ih _ hbefore hafter)

theorem settles_evalEach {before after vs ws : List Value} {q : Outcome (List Value)}
    (h : EvaluateTo before scope s ws t)
    (hafter : Settles (fun nested _ => evalEach nested scope (ws.reverse ++ vs) after) t q) :
    Settles (fun nested _ => evalEach nested scope vs (before ++ after)) s q := by
  let collect : List Value → List Value → Fueled (List Value) :=
    fun vs forms nested _ => evalEach nested scope vs forms
  have hcons (vs : List Value) (form : Value) (forms : List Value) : collect vs (form :: forms) =
      fun nested n => (eval form scope).exec nested n >>= fun v =>
        collect (v :: vs) forms nested n := rfl
  exact settles_each hcons vs h hafter

/-- Forms whose values do not matter are evaluated in order. -/
theorem settles_inOrder {before after vs : List Value} {q : Outcome Unit}
    (h : EvaluateTo before scope s vs t)
    (hafter : Settles (fun nested _ => after.forM fun form => do
      let _ ← nested.eval form scope) t q) :
    Settles (fun nested _ => (before ++ after).forM fun form => do
      let _ ← nested.eval form scope) s q := by
  let collect : List Value → List Value → Fueled Unit :=
    fun _ forms nested _ => forms.forM fun form => do let _ ← nested.eval form scope
  have hcons (vs : List Value) (form : Value) (forms : List Value) : collect vs (form :: forms) =
      fun nested n => (eval form scope).exec nested n >>= fun v =>
        collect (v :: vs) forms nested n := by
    funext nested n
    simp [collect, exec]
  exact settles_each hcons [] h hafter

theorem settles_mapOnto {f : Value} {before after vs ws : List Value} {o : Outcome Value}
    (h : Each (fun x => (apply f [x]).EndsIn) before s (.done ws t))
    (hafter : Settles (fun nested n => Builtin.mapOnto (Eval.apply nested n) f (ws.reverse ++ vs)
      after) t o) :
    Settles (fun nested n => Builtin.mapOnto (Eval.apply nested n) f vs (before ++ after)) s o := by
  let collect : List Value → List Value → Fueled Value :=
    fun vs xs nested n => Builtin.mapOnto (Eval.apply nested n) f vs xs
  have hcons (vs : List Value) (x : Value) (xs : List Value) : collect vs (x :: xs) =
      fun nested n => (apply f [x]).exec nested n >>= fun v => collect (v :: vs) xs nested n := rfl
  exact settles_each hcons vs h hafter

theorem Binds.settles {inner : Scope} {before after : List Value} {q : Outcome Unit}
    (h : Binds inner before s t)
    (hafter : Settles (fun nested _ => bindEach nested inner after) t q) :
    Settles (fun nested _ => bindEach nested inner (before ++ after)) s q := by
  induction h with
  | nil => exact hafter
  | cons hform _ ih => exact hform.settles.bind ((Settles.const _ _).bind (ih hafter))

theorem Fills.settles {d d' : Dict} {before after : List (Value × Value)} {q : Outcome Dict}
    (h : Fills scope d before s d' t)
    (hafter : Settles (fun nested _ => evalEntries nested scope d' after) t q) :
    Settles (fun nested _ => evalEntries nested scope d (before ++ after)) s q := by
  induction h with
  | nil => exact hafter
  | cons hform hinsert _ ih =>
    refine hform.settles.bind ?_
    simp only [hinsert]
    exact ih hafter

theorem Binds.length_even {inner : Scope} {bindings : List Value} (h : Binds inner bindings s t) :
    bindings.length % 2 = 0 := by
  induction h with
  | nil => rfl
  | cons _ _ ih =>
    rw [List.length_cons, List.length_cons]
    omega

end Parts

theorem special_bindLocal {nested : NestedCalls} {value : Value → Scope → Run Value} {n : Nat}
    {kind : SeqKind} {bindings : List Value} {tag body : Value} (h : bindings.length % 2 = 0) :
    Direct.special nested value n .bindLocal [.seq kind bindings tag, body] scope =
      Run.modify (·.newChild scope) >>= fun inner =>
        bindEach nested inner bindings >>= fun _ => value body inner :=
  if_pos h

theorem special_doInOrder {nested : NestedCalls} {value : Value → Scope → Run Value} {n : Nat}
    {forms : List Value} {last : Value} :
    Direct.special nested value n .doInOrder (forms ++ [last]) scope =
      (forms.forM fun form => do let _ ← nested.eval form scope) >>= fun _ => value last scope := by
  cases forms with
  | nil => rfl
  | cons form forms =>
    have hfront : (form :: (forms ++ [last])).dropLast = form :: forms := by
      rw [← List.cons_append, List.dropLast_concat]
    simp [Direct.special, hfront]

theorem settles_newChild (scope : Scope) (s : State) :
    Settles (fun _ _ => Run.modify (·.newChild scope)) s
      (.done (s.newChild scope).1 (s.newChild scope).2) :=
  .const _ s

/-- Where a run fails, handling it is running the handler. -/
theorem settles_handle_iff {α β : Type} {x : Fueled α} {f : NestedCalls → Nat → α → Run β}
    {g : NestedCalls → Nat → Error → Run β} {p : Outcome β} (h : Settles x s (.failed e t)) :
    Settles (fun nested n => handle (x nested n) (f nested n) (g nested n)) s p ↔
      Settles (fun nested n => g nested n e) t p := by
  obtain ⟨N, hN⟩ := h
  have hhandle (n : Nat) (hn : n ≥ N) :
      handle (x (.limited n) n) (f (.limited n) n) (g (.limited n) n) s = g (.limited n) n e t := by
    rw [handle, hN n hn]
  constructor
  · rintro ⟨M, hM⟩
    refine ⟨max N M, fun n hn => ?_⟩
    exact (hhandle n (Nat.le_trans (Nat.le_max_left N M) hn)).symm.trans
      (hM n (Nat.le_trans (Nat.le_max_right N M) hn))
  · rintro ⟨M, hM⟩
    refine ⟨max N M, fun n hn => ?_⟩
    exact (hhandle n (Nat.le_trans (Nat.le_max_left N M) hn)).trans
      (hM n (Nat.le_trans (Nat.le_max_right N M) hn))

/-- Behind the error of its first operand a `try*` is its handler, with the name bound to what the
error shows of itself. -/
theorem settles_tryCatch_iff {body handler tag : Value} {name : String}
    (hbody : (eval body scope).EndsIn s (.failed e t)) :
    Settles (fun nested n => Direct.special nested (loop nested n n) n .tryCatch
        [body, .seq .list [.symbol "catch*", .symbol name, handler] tag] scope) s o ↔
      Settles (run handler (t.newChild scope).1).exec
        ((t.newChild scope).2.define (t.newChild scope).1 name e.payload) o :=
  settles_handle_iff hbody.settles

/-- A special form fails with the error of what it comes to. -/
theorem Operand.fails {who : SpecialForm} {args : List Value} (h : Operand scope s who args B t)
    (hB : Settles B.exec t (.failed e S)) :
    Settles (fun nested n => Direct.special nested (loop nested n n) n who args scope) s
      (.failed e S) := by
  cases h with
  | define name form => exact hB.failed_bind
  | defineMacro name form => exact hB.failed_bind
  | @binding kind before after name form tag body _ hbefore hafter =>
    -- the number of bindings is checked before the first of them is made
    have heven : (before ++ .symbol name :: form :: after).length % 2 = 0 := by
      have hlength := hbefore.length_even
      rw [List.length_append, List.length_cons, List.length_cons]
      omega
    simp only [special_bindLocal heven]
    exact (settles_newChild scope s).bind (hbefore.settles hB.failed_bind).failed_bind
  | bound hbindings =>
    simp only [special_bindLocal hbindings.length_even]
    have hend : Settles (fun nested _ => bindEach nested (s.newChild scope).1 []) t (.done () t) :=
      ⟨0, fun _ _ => rfl⟩
    have hbound := hbindings.settles hend
    rw [List.append_nil] at hbound
    exact (settles_newChild scope s).bind (hbound.bind hB)
  | @inOrder before after vs form _ hbefore hafter =>
    obtain ⟨middle, last, rfl⟩ := (List.eq_nil_or_concat after).resolve_left hafter
    have hargs : before ++ form :: middle.concat last = (before ++ form :: middle) ++ [last] := by
      rw [List.concat_eq_append, List.append_assoc, List.cons_append]
    rw [hargs]
    simp only [special_doInOrder]
    exact (settles_inOrder hbefore hB.failed_bind.failed_bind).failed_bind
  | last hbefore =>
    have hend : Settles (fun nested _ => ([] : List Value).forM fun form => do
        let _ ← nested.eval form scope) t (.done () t) := ⟨0, fun _ _ => rfl⟩
    have hdone := settles_inOrder hbefore hend
    rw [List.append_nil] at hdone
    simp only [special_doInOrder]
    exact hdone.bind hB
  | test no => cases no <;> exact hB.failed_bind
  | yes no htest hv =>
    cases no with
    | none =>
      refine htest.settles.bind ?_
      simp only [hv]
      exact hB
    | some no =>
      refine htest.settles.bind ?_
      simp only [hv]
      exact hB
  | no htest hv =>
    refine htest.settles.bind ?_
    simp only [hv]
    exact hB
  | @template form x _ hform =>
    have htemplate : Settles (fun nested _ => nested.template form) s (.done x t) :=
      ⟨0, fun _ _ => hform⟩
    exact htemplate.bind hB
  | macroExpand form => exact hB
  | evalOperand form => exact hB.failed_bind
  | evalValue hform => exact hform.settles.bind hB
  | tryBody body => exact hB
  | handler hbody => exact (settles_tryCatch_iff hbody).mpr hB

/-! ### One activity inside another -/

theorem settles_evalEach_failed {before after vs : List Value} {form : Value}
    (h : EvaluateTo before scope s vs t)
    (hform : Settles (eval form scope).exec t (.failed e S)) :
    Settles (fun nested _ => evalEach nested scope [] (before ++ form :: after)) s (.failed e S) :=
  settles_evalEach h hform.failed_bind

theorem settles_evalEach_done {forms vs : List Value} (h : EvaluateTo forms scope s vs t) :
    Settles (fun nested _ => evalEach nested scope [] forms) s (.done vs t) := by
  have hend : Settles (fun nested _ => evalEach nested scope (vs.reverse ++ []) []) t
      (.done vs t) := by
    rw [List.append_nil]
    exact ⟨0, fun _ _ => congrArg (Outcome.done · t) vs.reverse_reverse⟩
  have hdone := settles_evalEach h hend
  rwa [List.append_nil] at hdone

theorem finish_call {nested : NestedCalls} {n : Nat} {head tag : Value} {args : List Value}
    (h : head.symbol?.bind SpecialForm.ofName? = none) :
    finish nested n (.seq .list (head :: args) tag) scope =
      nested.eval head scope >>= fun f => evalEach nested scope [] args >>= invoke nested n f := by
  change stepCall nested n head args scope = _
  rw [stepCall, h]

theorem settles_enterClosure {params : Params} {outer inner : Scope} {args : List Value}
    (h : enterClosure params outer args s = .done inner t) :
    Settles (fun _ _ => enterClosure params outer args) s (.done inner t) :=
  ⟨0, fun _ _ => h⟩

theorem exec_run_eq_expand (form : Value) (scope : Scope) :
    (run form scope).exec = fun nested n =>
      Eval.expand nested n form scope >>= fun x => loop nested n n x scope :=
  funext fun _ => funext fun n => loop_eq_expand n form scope

/-- What a macro call expands to is what the value of the macro's body expands to. -/
theorem settles_expand {c : MacroCall} {inner : Scope} {o : Outcome Value}
    (hcall : macroCall? s scope form = some c)
    (henter : enterClosure c.params c.scope c.args s = .done inner t) (ho : o ≠ .unfinished)
    (hbody : Settles (fun nested n => nested.eval c.body inner >>= fun x =>
      Eval.expand nested n x scope) t o) : Settles (expand form scope).exec s o := by
  have hrest : Refining fun nested n => enterClosure c.params c.scope c.args >>= fun inner =>
      nested.eval c.body inner >>= fun x => Eval.expand nested n x scope :=
    (Refining.enterClosure c.params c.scope c.args).bind fun inner =>
      (Refining.eval c.body inner).bind fun x => .expand x scope
  exact .of_succ hrest ((settles_enterClosure henter).bind hbody) ho fun _ _ => expand_of_call hcall

/-- What is not done any more behind an error further in is not done further out. -/
theorem Enters.fails (h : A.Enters s B t) (hB : B.EndsIn t (.failed e S)) :
    A.EndsIn s (.failed e S) := by
  have hfailed := endsIn_failed_iff.mp hB
  cases h with
  | expansion form scope =>
    rw [endsIn_failed_iff, exec_run_eq_expand]
    exact hfailed.failed_bind
  | expanded hexpand =>
    rw [endsIn_failed_iff, exec_run_eq_expand]
    exact hexpand.settles.bind hfailed
  | macroBody hcall henter =>
    exact endsIn_failed_iff.mpr (settles_expand hcall henter nofun hfailed.failed_bind)
  | expandedOnce hcall henter hbody =>
    exact endsIn_failed_iff.mpr (settles_expand hcall henter nofun (hbody.settles.bind hfailed))
  | element hbefore =>
    refine (run_endsIn_iff_finish (macroCall?_of_call?_eq_none rfl)).mpr ⟨nofun, ?_⟩
    exact (settles_evalEach_failed hbefore hfailed).failed_bind.failed_bind.failed_bind
  | mapValue hbefore =>
    refine (run_endsIn_iff_finish (macroCall?_of_call?_eq_none rfl)).mpr ⟨nofun, ?_⟩
    exact (hbefore.settles hfailed.failed_bind).failed_bind.failed_bind.failed_bind
  | head hmacro hspecial =>
    refine (run_endsIn_iff_finish hmacro).mpr ⟨nofun, ?_⟩
    simp only [finish_call hspecial]
    exact hfailed.failed_bind.failed_bind
  | argument hmacro hspecial hhead hbefore =>
    refine (run_endsIn_iff_finish hmacro).mpr ⟨nofun, ?_⟩
    simp only [finish_call hspecial]
    exact (hhead.settles.bind (settles_evalEach_failed hbefore hfailed).failed_bind).failed_bind
  | function hmacro hspecial hhead hargs =>
    refine (run_endsIn_iff_finish hmacro).mpr ⟨nofun, ?_⟩
    simp only [finish_call hspecial, bind_assoc]
    exact hhead.settles.bind ((settles_evalEach_done hargs).bind hfailed)
  | special hmacro hoperand =>
    exact (run_special_endsIn_iff _ hmacro).mpr ⟨nofun, hoperand.fails hfailed⟩
  | builtin b args =>
    -- applying a built-in function takes one unit of fuel more than calling it in place
    refine endsIn_failed_iff.mpr (hfailed.succ (.apply _ _) nofun fun nested n => ?_)
    exact congrFun (Direct.call_eq n (.builtin b) args) s
  | closure henter =>
    rw [endsIn_failed_iff, exec]
    simp only [← Direct.call_eq]
    exact (settles_enterClosure henter).bind hfailed
  | @applied params body tag outer inner isMacro args _ _ henter =>
    have hbody := (Refining.enterClosure params outer args).bind fun inner => .eval body inner
    exact endsIn_failed_iff.mpr
      (.of_succ hbody ((settles_enterClosure henter).bind hfailed) nofun fun _ _ => rfl)
  | spread f before items kind tag =>
    refine endsIn_failed_iff.mpr (.of_succ (.apply f _) hfailed nofun fun nested n => ?_)
    have hcall := call_spread nested n f before items kind tag
    exact congrFun ((apply_succ nested n _ _).trans hcall) s
  | @mapped f xs x before after vs _ _ hitems hbefore =>
    refine endsIn_failed_iff.mpr (.of_succ (.mapOnto f [] (before ++ x :: after))
      (settles_mapOnto hbefore hfailed.failed_bind) nofun fun nested n => ?_)
    exact congrFun ((apply_succ nested n _ _).trans (call_map nested n hitems)) s
  | swapped c f more =>
    let store (new : Value) : Run Value := do
      .update (·.setContent c new)
      return new
    have hstore (new : Value) : Refining fun _ _ => store new :=
      .const fun _ => (Refines.update fun _ _ => rfl).bind fun _ => .pure new
    exact endsIn_failed_iff.mpr (.of_succ ((Refining.apply f _).bind hstore) hfailed.failed_bind
      nofun fun _ _ => rfl)

theorem EndsIn.unique {p : Outcome Value} (h : A.EndsIn s o) (h' : A.EndsIn s p) : o = p :=
  Ends.unique A.refining.growing h h'

/-- However deep an activity is nested when it fails, what is under way around it stays. -/
theorem EndsIn.depth_eq (h : A.EndsIn s (.failed e S)) : S.depth = s.depth := by
  obtain ⟨-, n, hn⟩ := h
  have hfixed := A.refining.refines (limited_refines_fixed n s.counts) (Nat.le_refl n)
  exact congrArg Counts.depth (hfixed.counts_failed hn)

/-- A form that is run one level further in is evaluated by that. -/
theorem EndsIn.nested (hs : s.depth < s.limit) (h : (run form scope).EndsIn s.deeper o) :
    (eval form scope).EndsIn s (o.mapState State.shallower) := by
  obtain ⟨ho, n, hn⟩ := h
  have hn : loop (.limited n) n n form scope s.deeper = o := hn
  refine ⟨Outcome.mapState_ne_unfinished ho, n + 1, ?_⟩
  exact (eval_eq_loop hs n form scope).trans (by rw [hn])

/-- An error is the error of everything that it is under way in. -/
theorem Encloses.fails (h : A.Encloses s B t) (hB : B.EndsIn t (.failed e S)) :
    A.EndsIn s (.failed e { S with depth := s.depth }) := by
  induction h with
  | here A s =>
    rw [← hB.depth_eq]
    exact hB
  | level hs _ ih => exact (ih hB).nested hs
  | enters hA _ ih =>
    have hfails := hA.fails (ih hB)
    have hdepth := hfails.depth_eq
    dsimp only at hdepth
    rw [← hdepth]
    exact hfails

/-! ### Handlers -/

/-- One more frame, inside a scope, binds a name to a value, and nothing else has changed. -/
structure Bound (S : State) (scope : Scope) (name : String) (v : Value) (T : State) : Prop where
  size : T.frames.size = S.frames.size + 1
  kept : ∀ f < S.frames.size, T.frames[f]? = S.frames[f]?
  rest : T = { S with frames := T.frames }
  self : T.lookup (scope.child S.frames.size) name = some v
  other : ∀ other ≠ name, T.lookup (scope.child S.frames.size) other = S.lookup scope other

theorem bound_newChild (S : State) (scope : Scope) (name : String) (v : Value) :
    Bound S scope name v ((S.newChild scope).2.define (S.newChild scope).1 name v) where
  size := State.size_frames_bindAll_newChild S scope [(name, v)]
  kept _ hf := State.getElem?_frames_bindAll_newChild hf [(name, v)]
  rest := rfl
  self := S.lookup_bind_newChild_self scope name v
  other _ hother := S.lookup_bind_newChild_of_ne scope hother v

/-- An error passes everything that it is under way in, up to a `try*` with a handler: nothing else
is evaluated or changed, and only the count of nested calls is what it was further out. The handler
is run in that state with one more frame, inside the scope of the `try*`, that binds the name to the
value thrown, or to the message of any other error. -/
theorem errors_reach_handler (hA : A.Encloses s B t) (hB : B.EndsIn t (.failed e S)) :
    let R : State := { S with depth := s.depth }
    (∀ o, A.EndsIn s o ↔ o = .failed e R) ∧
      ∀ body scope name handler clauseTag tag,
        let form := Value.seq .list [.symbol "try*", body,
          .seq .list [.symbol "catch*", .symbol name, handler] clauseTag] tag
        A = eval body scope → macroCall? s scope form = none →
          ∃ v T, (∀ w, e = .thrown w → v = w) ∧
            ((∀ w, e ≠ .thrown w) → v = .text (R.errorMessage e)) ∧
            Bound R scope name v T ∧
            ∀ o, (run form scope).EndsIn s o ↔
              (run handler (scope.child R.frames.size)).EndsIn T o := by
  intro R
  have hfails : A.EndsIn s (.failed e R) := hA.fails hB
  refine ⟨fun o => ⟨fun h => h.unique hfails, fun h => h ▸ hfails⟩, ?_⟩
  rintro body scope name handler clauseTag tag form rfl hmacro
  refine ⟨e.payload, _, ?_, fun h => ?_, bound_newChild R scope name e.payload, fun o => ?_⟩
  · rintro w rfl
    rfl
  · cases e with
    | thrown w => exact absurd rfl (h w)
    | _ => rfl
  · have htry := run_special_endsIn_iff .tryCatch (o := o) hmacro
    rw [settles_tryCatch_iff hfails] at htry
    exact htry.trans endsIn_iff.symm

/-- What has been defined when `1` is thrown stays, and the handler gets the `1`. -/
theorem errors_reach_handler_thrown :
    let body := Value.list [.symbol "do", .list [.symbol "def!", .symbol "x", .int 1],
      .list [.symbol "throw", .symbol "x"]]
    let form := Value.list [.symbol "try*", body,
      .list [.symbol "catch*", .symbol "e", .symbol "e"]]
    let s := (State.initial Host.plain).newGlobal.2.bind 0 "throw" (.builtin .throw)
    let t := s.deeper.bind 0 "x" (.int 1)
    let throwing := apply (.builtin .throw) [.int 1]
    ((eval body (.global 0)).Encloses s throwing t ∧
      throwing.EndsIn t (.failed (.thrown (.int 1)) t)) ∧
      ∃ T, T.lookup ⟨[1], 0⟩ "x" = some (.int 1) ∧
        (run form (.global 0)).EndsIn s (.done (.int 1) T) := by
  intro body form s t throwing
  have hdefine : EvaluateTo [.list [.symbol "def!", .symbol "x", .int 1]] (.global 0) s.deeper
      [.int 1] t := by
    refine .cons ⟨Outcome.done_ne_unfinished _ _, 3, ?_⟩ .nil
    simp only [t, s, State.bind, State.newGlobal, State.newFrame, State.initial]
    cbv
  have hthrow : (eval (.symbol "throw") (.global 0)).EndsIn t (.done (.builtin .throw) t) := by
    refine ⟨Outcome.done_ne_unfinished _ _, 3, ?_⟩
    simp only [t, s, State.bind, State.newGlobal, State.newFrame, State.initial]
    cbv
  have hargs : EvaluateTo [.symbol "x"] (.global 0) t [.int 1] t := by
    refine .cons ⟨Outcome.done_ne_unfinished _ _, 3, ?_⟩ .nil
    simp only [t, s, State.bind, State.newGlobal, State.newFrame, State.initial]
    cbv
  have hA : (eval body (.global 0)).Encloses s throwing t := by
    refine .level (by decide) (.enters (.special ?_ (.last hdefine)) ?_)
    · rfl
    · refine .enters (.function ?_ ?_ hthrow hargs) (.enters (.builtin .throw _ t) (.here _ t))
      · rfl
      · rfl
  have hB : throwing.EndsIn t (.failed (.thrown (.int 1)) t) := ⟨Outcome.failed_ne_unfinished _ _, 1, rfl⟩
  obtain ⟨-, hhandler⟩ := errors_reach_handler hA hB
  have hmacro : macroCall? s (.global 0) form = none := by
    rfl
  obtain ⟨v, T, hv, -, hbound, hrun⟩ :=
    hhandler body (.global 0) "e" (.symbol "e") .nil .nil rfl hmacro
  obtain rfl := hv _ rfl
  refine ⟨⟨hA, hB⟩, T, ?_, (hrun _).mpr ⟨Outcome.done_ne_unfinished _ _, 3, ?_⟩⟩
  · exact (hbound.other "x" (by decide)).trans rfl
  · have hself : T.lookup ⟨[1], 0⟩ "e" = some (.int 1) := hbound.self
    change loop (.limited 3) 3 3 (.symbol "e") ⟨[1], 0⟩ T = _
    simp only [loop_succ, Eval.step, Value.call?, evalPlain, bind_apply, inspect_apply]
    rw [hself]
    rfl

end Activity

end Lisp
