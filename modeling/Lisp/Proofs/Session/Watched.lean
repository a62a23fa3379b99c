import Lisp.Proofs.Nesting.Watched

/-!
# Sessions under watch

Whatever is asked of the language is evaluated here by nested calls that are watched, and with the
number of those that are under way handed on from each to the next (`Watched.eval`). It agrees with
what is evaluated without a watch (`Operation.agree`), so no alarm is given: while a nested call is
under way the count is the number of nested calls under way, and it is lowered as often as it is
raised. `counter_is_nesting` says so of every state that operations lead to.
-/

namespace Lisp

open Run

/-! ### Evaluation -/

namespace NestedCalls

/-- Under these counts the nested calls do the same, and they leave the counts as they were. -/
structure AgreeAt (c : Counts) (a b : NestedCalls) : Prop where
  eval : ∀ form scope, Run.AgreeAt c (a.eval form scope) (b.eval form scope)
  read : ∀ text, Run.AgreeAt c (a.read text) (b.read text)
  template : ∀ v, Run.AgreeAt c (a.template v) (b.template v)

/-- Nested calls under watch, from where `k` nested calls are under way. -/
def watched (alarm : Run Unit) (k : Nat) (nested : NestedCalls) : NestedCalls where
  eval form scope := Watched.watching alarm k (nested.eval form scope)
  read text := Watched.watching alarm k (nested.read text)
  template v := Watched.watching alarm k (nested.template v)

variable {c : Counts} {a b : NestedCalls}

theorem AgreeAt.refines (h : a.AgreeAt c b) : a.Refines (Counts.fixed c) b where
  eval form scope := (h.eval form scope).refines
  read text := (h.read text).refines
  template v := (h.template v).refines

theorem AgreeAt.symm (h : a.AgreeAt c b) : b.AgreeAt c a where
  eval form scope := (h.eval form scope).symm
  read text := (h.read text).symm
  template v := (h.template v).symm

theorem AgreeAt.watched {alarm : Run Unit} (h : a.AgreeAt c a) :
    (a.watched alarm c.depth).AgreeAt c a where
  eval form scope := (h.eval form scope).watching
  read text := (h.read text).watching
  template v := (h.template v).watching

theorem AgreeAt.loop (h : a.AgreeAt c b) (n m : Nat) (form : Value) (scope : Scope) :
    Run.AgreeAt c (Eval.loop a n m form scope) (Eval.loop b n m form scope) :=
  .of_refines (Eval.loop_refines h.refines (Nat.le_refl n) (Nat.le_refl m) form scope)
    (Eval.loop_refines h.symm.refines (Nat.le_refl n) (Nat.le_refl m) form scope)

theorem AgreeAt.apply (h : a.AgreeAt c b) (n : Nat) (f : Value) (args : List Value) :
    Run.AgreeAt c (Eval.apply a n f args) (Eval.apply b n f args) :=
  .of_refines (Eval.apply_refines h.refines (Nat.le_refl n) f args)
    (Eval.apply_refines h.symm.refines (Nat.le_refl n) f args)

theorem AgreeAt.expand (h : a.AgreeAt c b) (n : Nat) (form : Value) (scope : Scope) :
    Run.AgreeAt c (Eval.expand a n form scope) (Eval.expand b n form scope) :=
  .of_refines (Eval.expand_refines h.refines (Nat.le_refl n) form scope)
    (Eval.expand_refines h.symm.refines (Nat.le_refl n) form scope)

end NestedCalls

namespace Watched

section

variable (alarm : Run Unit)

/-- Evaluates a form, with `k` nested calls under way. -/
def eval : Nat → Nat → Value → Scope → Run Value
  | 0, _, _, _ => .unfinished
  | n + 1, k, form, scope =>
    guarded alarm k <|
      Eval.loop ⟨eval n (k + 1), readFirst alarm (k + 1), template alarm (k + 1)⟩ n n form scope

/-- The nested calls under watch from where `k` are under way. -/
def calls (n k : Nat) : NestedCalls :=
  ⟨eval alarm n k, readFirst alarm k, template alarm k⟩

/-- Evaluates forms in order. -/
def evalForms (n k : Nat) (scope : Scope) (last : Value) : List Value → Run Value
  | [] => return last
  | form :: forms => do evalForms n k scope (← eval alarm n k form scope) forms

/-- Reads all forms of a text and then evaluates them in order. -/
def evalText (n k : Nat) (scope : Scope) (text : String) : Run Value := do
  match ← readAll alarm k text with
  | [] => .raise .emptyInput
  | forms => evalForms alarm n k scope .nil forms

/-- Evaluates the first forms of texts, one after the other. -/
def evalSources (n k : Nat) (scope : Scope) : List String → Run Unit
  | [] => return ()
  | source :: sources => do
    let _ ← eval alarm n k (← readFirst alarm k source) scope
    evalSources n k scope sources

variable {alarm} {c : Counts}

theorem calls_agreeAt_of {n : Nat}
    (h : ∀ form scope, AgreeAt c (eval alarm n c.depth form scope) (Lisp.eval n form scope)) :
    (calls alarm n c.depth).AgreeAt c (.limited n) where
  eval := h
  read := readFirst_agree c
  template := template_agree c

/-- Evaluating under watch agrees with evaluating: a form is one nested call more, and what is
evaluated, read or expanded for it is nested in that. -/
theorem eval_agree (n : Nat) (c : Counts) (form : Value) (scope : Scope) :
    AgreeAt c (eval alarm n c.depth form scope) (Lisp.eval n form scope) := by
  induction n generalizing c form scope with
  | zero => exact .unfinished
  | succ n ih =>
    have hcalls : (calls alarm n (c.depth + 1)).AgreeAt ⟨c.depth + 1, c.limit⟩ (.limited n) :=
      calls_agreeAt_of (ih ⟨c.depth + 1, c.limit⟩)
    rw [eval, eval_succ]
    exact (hcalls.loop n n form scope).guarded

theorem calls_agreeAt (n : Nat) (c : Counts) : (calls alarm n c.depth).AgreeAt c (.limited n) :=
  calls_agreeAt_of (eval_agree n c)

theorem evalForms_agree (n : Nat) (c : Counts) (scope : Scope) (last : Value)
    (forms : List Value) :
    AgreeAt c (evalForms alarm n c.depth scope last forms)
      (Session.evalForms n scope last forms) := by
  induction forms generalizing last with
  | nil => exact .pure _
  | cons form forms ih => exact (eval_agree n c form scope).bind fun v => ih v

theorem evalText_agree (n : Nat) (c : Counts) (scope : Scope) (text : String) :
    AgreeAt c (evalText alarm n c.depth scope text) (Session.evalText n scope text) := by
  refine (readAll_agree c text).bind fun forms => ?_
  cases forms with
  | nil => exact .raise _
  | cons form forms => exact evalForms_agree n c scope .nil (form :: forms)

theorem evalSources_agree (n : Nat) (c : Counts) (scope : Scope) (sources : List String) :
    AgreeAt c (evalSources alarm n c.depth scope sources)
      (Lisp.evalSources n scope sources) := by
  induction sources with
  | nil => exact .pure _
  | cons source sources ih =>
    have hsource : AgreeAt c
        (readFirst alarm c.depth source >>= fun form => eval alarm n c.depth form scope)
        (evalSource n scope source) :=
      (readFirst_agree c source).bind fun form => eval_agree n c form scope
    rw [evalSources, ← bind_assoc]
    exact hsource.bind fun _ => ih

end

/-! ### Operations -/

/-- What can be asked of the language, by the kind of the answer. -/
inductive Operation : Type → Type
  | eval (form : Value) (scope : Scope) : Operation Value
  | apply (f : Value) (args : List Value) : Operation Value
  | expand (form : Value) (scope : Scope) : Operation Value
  | readFirst (text : String) : Operation Value
  | readAll (text : String) : Operation (List Value)
  | template (v : Value) : Operation Value
  | start : Operation Scope
  | evalText (scope : Scope) (text : String) : Operation Value
  | evalPrint (scope : Scope) (text : String) : Operation String
  | loadFile (scope : Scope) (path : String) : Operation Value
  | setArguments (scope : Scope) (args : List String) : Operation Unit

namespace Operation

variable {α : Type}

/-- What an operation does. -/
def perform (n : Nat) : Operation α → Run α
  | eval form scope => Lisp.eval n form scope
  | apply f args => applyFunction n f args
  | expand form scope => expandMacros n form scope
  | readFirst text => readForm text
  | readAll text => readForms text
  | template v => expandTemplate v
  | start => Session.start n
  | evalText scope text => Session.evalText n scope text
  | evalPrint scope text => Session.evalPrint n scope text
  | loadFile scope path => Session.loadFile n scope path
  | setArguments scope args => Session.setArguments scope args

/-- What an operation does under watch, with `k` nested calls under way. -/
def watched (alarm : Run Unit) (n k : Nat) : Operation α → Run α
  | eval form scope => Watched.eval alarm n k form scope
  | apply f args => Eval.apply (calls alarm n k) n f args
  | expand form scope => Eval.expand (calls alarm n k) n form scope
  | readFirst text => Watched.readFirst alarm k text
  | readAll text => Watched.readAll alarm k text
  | template v => Watched.template alarm k v
  | start => do
    let scope ← Session.bare
    Watched.evalSources alarm n k scope preludeSources
    return scope
  | evalText scope text => Watched.evalText alarm n k scope text
  | evalPrint scope text => do
    Run.shown .readable (← Watched.evalText alarm n k scope text)
  | loadFile scope path =>
    Watched.eval alarm n k (.list [.symbol "load-file", .text path]) scope
  | setArguments scope args => Session.setArguments scope args

variable {alarm : Run Unit} {c : Counts}

theorem bare_agree : AgreeAt c Session.bare Session.bare := by
  have h : Refines (Counts.fixed c) Session.bare Session.bare := by
    refine (Refines.modify fun _ _ => rfl).bind fun scope => ?_
    exact (Refines.update fun s c => s.bindAll_withCounts c _ _).bind fun _ => .pure _
  exact .of_refines h h

/-- An operation under watch agrees with the operation itself. -/
theorem agree (op : Operation α) (n : Nat) (c : Counts) :
    AgreeAt c (op.watched alarm n c.depth) (op.perform n) := by
  cases op with
  | eval form scope => exact eval_agree n c form scope
  | apply f args => exact (calls_agreeAt n c).apply n f args
  | expand form scope => exact (calls_agreeAt n c).expand n form scope
  | readFirst text => exact readFirst_agree c text
  | readAll text => exact readAll_agree c text
  | template v => exact template_agree c v
  | start =>
    exact bare_agree.bind fun scope =>
      (evalSources_agree n c scope preludeSources).bind fun _ => .pure scope
  | evalText scope text => exact evalText_agree n c scope text
  | evalPrint scope text =>
    exact (evalText_agree n c scope text).bind fun v =>
      .of_refines (.shown .readable v) (.shown .readable v)
  | loadFile scope path => exact eval_agree n c _ scope
  | setArguments scope args =>
    exact .of_refines (.update fun _ _ => rfl) (.update fun _ _ => rfl)

/-- An operation leaves the counts as they were. -/
theorem keeps (op : Operation α) (n : Nat) (c : Counts) :
    AgreeAt c (op.perform n) (op.perform n) := by
  have hagree : AgreeAt c (op.watched (return ()) n c.depth) (op.perform n) := op.agree n c
  exact hagree.right

theorem counts_eq (op : Operation α) {n : Nat} {s t : State} (h : (op.perform n s).Leaves t) :
    t.counts = s.counts :=
  (op.keeps n s.counts).kept rfl h

end Operation

/-- The states that operations lead to. Between two of them anything may change but the count of
nested calls. -/
inductive Follows (s : State) : State → Prop
  | refl : Follows s s
  | perform {α : Type} {n : Nat} {t u : State} (op : Operation α) :
      Follows s t → (op.perform n t).Leaves u → Follows s u
  | outside {t u : State} : Follows s t → u.depth = t.depth → Follows s u

variable {s t : State}

theorem Follows.depth_eq (h : Follows s t) : t.depth = s.depth := by
  induction h with
  | refl => rfl
  | perform op _ hleaves ih => exact (congrArg Counts.depth (op.counts_eq hleaves)).trans ih
  | outside _ hdepth ih => exact hdepth.trans ih

end Watched

namespace Session

open Watched

/-- What is asked of a session leaves the counts as they were. -/
theorem Operation.keeps (op : Session.Operation) (n : Nat) (scope : Scope) (c : Counts) :
    AgreeAt c (op.perform n scope) (op.perform n scope) := by
  cases op with
  | evalText text =>
    exact ((Watched.Operation.evalText scope text).keeps n c).bind fun _ => .pure _
  | evalPrint text =>
    exact ((Watched.Operation.evalPrint scope text).keeps n c).bind fun _ => .pure _
  | loadFile path =>
    exact ((Watched.Operation.loadFile scope path).keeps n c).bind fun _ => .pure _
  | setArguments args => exact (Watched.Operation.setArguments scope args).keeps n c

/-- Between two operations of a session no nested call is counted. -/
theorem Reachable.depth_eq {scope : Scope} {s : State} (h : Reachable scope s) : s.depth = 0 := by
  induction h with
  | @start n host scope s t hbare ht =>
    have hs : s.counts = (State.initial host).counts :=
      Watched.Operation.bare_agree.kept rfl (hbare ▸ Outcome.leaves_done.mpr rfl)
    have hsources : AgreeAt s.counts
        (Watched.evalSources (return ()) n s.depth scope preludeSources)
        (Lisp.evalSources n scope preludeSources) := evalSources_agree n s.counts scope _
    exact congrArg Counts.depth ((hsources.right.kept rfl ht).trans hs)
  | @perform n scope s t op _ ht ih =>
    exact (congrArg Counts.depth ((op.keeps n scope s.counts).kept rfl ht)).trans ih
  | outside host limit _ ih => exact ih

end Session

namespace Watched

/-- Whatever operations lead from one state to another, as many nested calls are counted in both.
Every operation that is asked next does the same under a watch which begins with that number and
adds one for each nested call inside another, whatever its alarm does. So wherever a body is run the
count is the number of nested calls under way and no more than the limit, and it is never lowered
below zero; and however the operation ends, the count is what it was.

An operation that runs forever gives no answer that could differ. But the same holds of a single
body whatever its nested calls are, if they keep the count: a watch around the body and around each
of them changes nothing. A nested call is refused, and its body not run, exactly if as many are
under way as the limit allows. Between two operations of a session none is. -/
theorem counter_is_nesting :
    (∀ s t, Follows s t →
      t.depth = s.depth ∧
      (∀ {α : Type} (op : Operation α) n,
        (∀ alarm, op.watched alarm n s.depth t = op.perform n t) ∧
        ∀ u, (op.perform n t).Leaves u → u.depth = s.depth ∧ u.limit = t.limit) ∧
      (∀ nested : NestedCalls, nested.AgreeAt ⟨s.depth + 1, t.limit⟩ nested →
        ∀ alarm n m form scope,
          guarded alarm s.depth (Eval.loop (nested.watched alarm (s.depth + 1)) n m form scope) t =
            Run.guarded (Eval.loop nested n m form scope) t) ∧
      ∀ alarm {α : Type} (x : Run α), guarded alarm s.depth x t =
        if t.limit ≤ s.depth then .failed (.depthExceeded t.limit) t
        else leaving alarm (watching alarm (s.depth + 1) x) t.deeper) ∧
    ∀ scope s, Session.Reachable scope s → s.depth = 0 := by
  refine ⟨fun s t h => ?_, fun _ _ => Session.Reachable.depth_eq⟩
  have hdepth : t.depth = s.depth := h.depth_eq
  rw [← hdepth]
  refine ⟨rfl, fun op n => ⟨fun alarm => ?_, fun u hu => ?_⟩, fun nested hnested alarm n m form
    scope => ?_, fun alarm _ x => guarded_apply rfl⟩
  · exact (op.agree n t.counts).eq rfl
  · have hcounts := op.counts_eq hu
    exact ⟨congrArg Counts.depth hcounts, congrArg Counts.limit hcounts⟩
  · have hwatched : (nested.watched alarm (t.depth + 1)).AgreeAt ⟨t.depth + 1, t.limit⟩ nested :=
      hnested.watched
    exact (hwatched.loop n m form scope).guarded.eq (c := t.counts) rfl

/-- A template that finds no level left, inside of a `try*` that takes two: the handler is run
instead, in one state after the other. -/
theorem counter_is_nesting_caught :
    let form : Value := .list [.symbol "try*", .list [.symbol "quasiquote", .symbol "x"],
      .list [.symbol "catch*", .symbol "e", .list [.symbol "quote", .symbol "refused"]]]
    let s : State := { (State.initial Host.plain).newGlobal.2 with limit := 2 }
    let op : Operation Value := .eval form (.global 0)
    ∃ t u, Follows s t ∧ t.depth = 0 ∧
      ∀ alarm, op.watched alarm 4 0 s = .done (.symbol "refused") t ∧
        op.watched alarm 4 0 t = .done (.symbol "refused") u := by
  intro form s op
  obtain ⟨t, ht⟩ : ∃ t, op.perform 4 s = .done (.symbol "refused") t := ⟨_, rfl⟩
  obtain ⟨u, hu⟩ : ∃ u, op.perform 4 t = .done (.symbol "refused") u := by
    cases ht
    exact ⟨_, rfl⟩
  have hfollows : Follows s t := .perform op .refl (ht ▸ Outcome.leaves_done.mpr rfl)
  obtain ⟨hall, -⟩ := counter_is_nesting
  obtain ⟨-, hs, -⟩ := hall s s .refl
  obtain ⟨hdepth, ht', -⟩ := hall s t hfollows
  exact ⟨t, u, hfollows, hdepth, fun alarm =>
    ⟨((hs op 4).1 alarm).trans ht, ((ht' op 4).1 alarm).trans hu⟩⟩

end Watched

end Lisp
