import Lisp.Proofs.Invariant.DistinctKeys
import Lisp.Proofs.Run.Endings

/-!
# Map forms

Evaluating a map form inserts the values one by one at the keys, and each insertion compares a key
with those in front of it. `evalPaired` compares nothing: it pairs the keys with the values of the
forms, and is otherwise evaluation. The two are the same under every discipline by which keys are
distinct, so the insertions neither fail nor merge entries in whatever map form a run comes across,
whatever the evaluation of the values does to the atoms in its keys.
-/

namespace Lisp

open Run

/-! ### Inserting distinct keys -/

namespace Dict

variable {d e : Dict} {key v w : Value} {vs : List Value}

/-- What stands at the keys does not matter for their being distinct. -/
theorem distinct_iff_of_keys (h : d.map Prod.fst = e.map Prod.fst) : d.Distinct ↔ e.Distinct := by
  have hkeys (d : Dict) :
      d.Distinct ↔ (d.map Prod.fst).Pairwise fun k l : Value => k.equal l = .ok false := by
    rw [List.pairwise_map]
    rfl
  rw [hkeys, hkeys, h]

/-- The keys of some entries with other values. -/
def pair (d : Dict) (vs : List Value) : Dict :=
  (d.map Prod.fst).zip vs

theorem keys_pair (h : vs.length = d.length) : (d.pair vs).map Prod.fst = d.map Prod.fst := by
  refine List.map_fst_zip (Nat.le_of_eq ?_)
  rw [List.length_map, h]

/-- A key that differs from those in front of it comes behind them, whatever stands at them. -/
theorem insert_pair (h : Distinct (d ++ (key, w) :: e)) (hvs : vs.length = d.length) :
    (d.pair vs).insert key v = .ok (d.pair vs ++ [(key, v)]) := by
  refine insert_of_apart fun f hf => ?_
  obtain ⟨-, -, hapart⟩ := List.pairwise_append.mp h
  have hkey : f.1 ∈ d.map Prod.fst := keys_pair hvs ▸ List.mem_map_of_mem hf
  obtain ⟨f', hf', heq⟩ := List.mem_map.mp hkey
  exact heq ▸ hapart f' hf' _ (.head _)

end Dict

namespace Eval

variable {nested : NestedCalls} {scope : Scope}

/-- Values that have been found come in front of those still to be found. -/
theorem evalEach_eq_map (done forms : List Value) :
    evalEach nested scope done forms =
      (done.reverse ++ ·) <$> evalEach nested scope [] forms := by
  induction forms generalizing done with
  | nil => simp [evalEach]
  | cons form forms ih =>
    rw [evalEach, evalEach, map_bind]
    refine bind_congr fun v => ?_
    rw [ih (v :: done), ih [v], Functor.map_map]
    simp

/-- Where keys are distinct, inserting the values is pairing them with the keys. -/
theorem evalEntries_distinct {done m : Dict} (h : Dict.Distinct (done ++ m)) :
    evalEntries nested scope done m =
      (done ++ m.pair ·) <$> evalEach nested scope [] (m.map Prod.snd) := by
  induction m generalizing done with
  | nil => simp [evalEntries, evalEach, Dict.pair]
  | cons e m ih =>
    obtain ⟨key, form⟩ := e
    rw [evalEntries, List.map_cons, evalEach, map_bind]
    refine bind_congr fun v => ?_
    have hinsert : done.insert key v = .ok (done ++ [(key, v)]) := by
      refine Dict.insert_of_apart fun f hf => ?_
      exact (List.pairwise_append.mp h).2.2 f hf _ (.head _)
    have hdistinct : Dict.Distinct (done ++ [(key, v)] ++ m) :=
      (Dict.distinct_iff_of_keys (by simp)).mp h
    rw [hinsert, evalEach_eq_map [v], Functor.map_map]
    change evalEntries nested scope (done ++ [(key, v)]) m = _
    rw [ih hdistinct]
    simp [Dict.pair]

/-- With distinct keys nothing is inserted that is not paired as well. -/
theorem evalEntries_eq_pair {m : Dict} (h : m.Distinct) :
    evalEntries nested scope [] m = m.pair <$> evalEach nested scope [] (m.map Prod.snd) :=
  evalEntries_distinct h

/-! ### How map forms end -/

variable {form : Value} {forms : List Value} {m : Dict} {s : State} {o : Outcome Value}

/-- Evaluating forms from left to right ends in what comes of each of them in turn. -/
theorem ends_evalEach_iff {q : Outcome (List Value)} :
    Ends (fun n => evalEach (.limited n) scope [] forms) s q ↔
      Each (fun form => Ends fun n => eval n form scope) forms s q := by
  have hgrow (forms : List Value) : Growing fun n => evalEach (.limited n) scope [] forms :=
    fun _ _ h => evalEach_refines (limited_refines (eval_refines h)) scope [] forms
  induction forms generalizing s q with
  | nil =>
    constructor
    · rintro ⟨-, n, rfl⟩
      exact .nil
    · intro h
      cases h
      exact ⟨nofun, 0, rfl⟩
  | cons form forms ih =>
    have hcons : (fun n => evalEach (.limited n) scope [] (form :: forms)) = fun n =>
        eval n form scope >>= fun v => (v :: ·) <$> evalEach (.limited n) scope [] forms := by
      funext n
      exact bind_congr fun v => evalEach_eq_map [v] forms
    have hrest (v : Value) :
        Growing fun n => (v :: ·) <$> evalEach (.limited n) scope [] forms := by
      simp only [← bind_pure_comp]
      exact (hgrow forms).bind fun vs => growing_const _
    rw [hcons, ends_bind_iff (fun _ _ h => eval_refines h form scope) hrest]
    constructor
    · rintro ⟨o, ho, hlead⟩
      cases o with
      | done v t =>
        obtain ⟨r, hr, rfl⟩ := ends_map_iff.mp hlead
        exact .cons ho (ih.mp hr)
      | failed e t => exact hlead ▸ .failed ho
      | unfinished => exact hlead.elim
    · intro h
      cases h with
      | cons hv hr => exact ⟨_, hv, ends_map_iff.mpr ⟨_, ih.mpr hr, rfl⟩⟩
      | failed he => exact ⟨_, he, rfl⟩

/-- Below the limit a form that is no call ends in what comes of its parts one level further in. -/
theorem ends_plain_iff (hcall : form.call? = none) :
    Ends (fun n => eval n form scope) s o ↔
      (s.limit ≤ s.depth ∧ o = .failed (.depthExceeded s.limit) s) ∨
      (s.depth < s.limit ∧ ∃ p, Ends (fun n => evalPlain (.limited n) form scope) s.deeper p ∧
        o = p.mapState State.shallower) := by
  have hloop (n m : Nat) : loop (.limited n) n (m + 1) form scope =
      evalPlain (.limited n) form scope := by
    simp only [loop, Eval.step, hcall, bind_assoc, pure_bind, bind_pure]
  by_cases hs : s.limit ≤ s.depth
  · have hrefused (n : Nat) : eval (n + 1) form scope s = .failed (.depthExceeded s.limit) s :=
      guarded_of_limit_le _ hs
    rw [or_iff_left fun h => absurd hs (Nat.not_le.mpr h.1), and_iff_right hs]
    constructor
    · intro h
      exact h.unique (fun _ _ h => eval_refines h form scope) ⟨nofun, 1, hrefused 0⟩
    · rintro rfl
      exact ⟨nofun, 1, hrefused 0⟩
  · replace hs : s.depth < s.limit := Nat.lt_of_not_le hs
    rw [or_iff_right fun h => absurd h.1 (Nat.not_le.mpr hs), and_iff_right hs]
    constructor
    · rintro ⟨ho, n, hn⟩
      match n with
      | 0 => exact absurd hn.symm ho
      | 1 =>
        refine absurd ?_ ho
        exact hn.symm.trans (eval_eq_loop hs 0 form scope)
      | n + 2 =>
        replace hn := (eval_eq_loop hs (n + 1) form scope).symm.trans hn
        rw [hloop] at hn
        exact ⟨_, ⟨Outcome.ne_unfinished_of_mapState (hn ▸ ho), n + 1, rfl⟩, hn.symm⟩
    · rintro ⟨p, ⟨hp, n, rfl⟩, rfl⟩
      refine ⟨Outcome.mapState_ne_unfinished hp, n + 2, ?_⟩
      refine (eval_eq_loop hs (n + 1) form scope).trans (congrArg _ ?_)
      rw [hloop]
      have hmore : (NestedCalls.limited n).Refines Counts.same (.limited (n + 1)) :=
        limited_refines (eval_refines (Nat.le_succ n))
      exact (evalPlain_refines hmore form scope).apply_eq hp

/-- A map form whose keys are distinct ends in what comes of its values in turn: their values at the
keys, or the first error. -/
theorem ends_map_form_iff (hm : m.Distinct) {tag : Value} :
    Ends (fun n => eval n (.map m tag) scope) s o ↔
      (s.limit ≤ s.depth ∧ o = .failed (.depthExceeded s.limit) s) ∨
      (s.depth < s.limit ∧ ∃ q,
        Each (fun form => Ends fun n => eval n form scope) (m.map Prod.snd) s.deeper q ∧
          o = (q.andThen fun vs t => .done (.dict (m.pair vs)) t).mapState State.shallower) := by
  have hplain : (fun n => evalPlain (.limited n) (.map m tag) scope) = fun n =>
      (fun vs => Value.dict (m.pair vs)) <$> evalEach (.limited n) scope [] (m.map Prod.snd) := by
    funext n
    simp only [evalPlain, evalEntries_eq_pair hm, bind_pure_comp, Functor.map_map]
  rw [ends_plain_iff rfl, hplain]
  simp only [ends_map_iff, ends_evalEach_iff]
  refine or_congr_right (and_congr_right fun _ => ?_)
  constructor
  · rintro ⟨_, ⟨q, hq, rfl⟩, rfl⟩
    exact ⟨q, hq, rfl⟩
  · rintro ⟨q, hq, rfl⟩
    exact ⟨_, ⟨q, hq, rfl⟩, rfl⟩

/-! ### Evaluating without comparing keys -/

section Paired

variable (nested : NestedCalls)

/-- As `evalPlain`, but in a map the values are paired with the keys. -/
def evalPlainPaired (form : Value) (scope : Scope) : Run Value :=
  match form with
  | .map m _ => (fun vs => .dict (Dict.pair m vs)) <$> evalEach nested scope [] (m.map Prod.snd)
  | form => evalPlain nested form scope

/-- As `step`, but in a map form the values are paired with the keys. -/
def stepPaired (n : Nat) (form : Value) (scope : Scope) : Run Step := do
  match form.call? with
  | none => return .done (← evalPlainPaired nested form scope)
  | some _ =>
    let form ← expand nested n form scope
    match form.call? with
    | none => return .done (← evalPlainPaired nested form scope)
    | some (head, args) => stepCall nested n head args scope

/-- As `loop`, but in map forms the values are paired with the keys. -/
def loopPaired (n : Nat) : Nat → Value → Scope → Run Value
  | 0, _, _ => .unfinished
  | m + 1, form, scope => do
    match ← stepPaired nested n form scope with
    | .done v => return v
    | .next form scope => loopPaired n m form scope

end Paired

end Eval

/-- As `eval`, but no keys are compared where map forms are evaluated: the values are paired with
the keys. -/
def evalPaired : Nat → Value → Scope → Run Value
  | 0, _, _ => .unfinished
  | n + 1, form, scope =>
    Run.guarded (Eval.loopPaired ⟨evalPaired n, readForm, expandTemplate⟩ n n form scope)

/-- The nested calls that compare no keys where map forms are evaluated. -/
def NestedCalls.limitedPaired (n : Nat) : NestedCalls where
  eval := evalPaired n
  read := readForm
  template := expandTemplate

/-- As `applyFunction`, but no keys are compared where map forms are evaluated. -/
def applyFunctionPaired (n : Nat) (f : Value) (args : List Value) : Run Value :=
  Eval.apply (.limitedPaired n) n f args

/-- As `expandMacros`, but no keys are compared where map forms are evaluated. -/
def expandMacrosPaired (n : Nat) (form : Value) (scope : Scope) : Run Value :=
  Eval.expand (.limitedPaired n) n form scope

section Agree

variable {W : Type} [Preorder W] {D : Discipline W} (hD : D.Lawful) {w : W}
  (hkeys : ∀ {m}, D.entries m → Dict.Distinct m)

omit [Preorder W] in
include hkeys in
/-- In a form as the discipline has it pairing is inserting. -/
theorem Eval.evalPlainPaired_eq {nested : NestedCalls} {form : Value} {scope : Scope}
    (hform : D.Value w form) : evalPlainPaired nested form scope = evalPlain nested form scope := by
  cases form with
  | map m tag =>
    have hm : Dict.Distinct m := hkeys (Shape.fits_map.mp hform).1.1
    simp only [evalPlainPaired, evalPlain, evalEntries_eq_pair hm, bind_pure_comp, Functor.map_map]
  | _ => rfl

include hD hkeys

/-- A step is the same where keys are distinct. -/
theorem Eval.stepPaired_agree {a b : NestedCalls} (h : NestedCalls.Agree D a b) (k : Nat)
    {form : Value} {scope : Scope} (hform : D.Value w form) (hscope : D.entered w scope) :
    Agree D w (Step.Meets D) (step a k form scope) (stepPaired b k form scope) := by
  unfold step stepPaired
  cases form.call? with
  | none =>
    rw [evalPlainPaired_eq hkeys hform]
    exact finish_agree hD (evalPlain_agree hD h hform hscope)
  | some _ =>
    refine (expand_agree hD h k hform hscope).bind fun w' form hw hform => ?_
    have hscope := hD.entered_mono hw hscope
    cases hc : form.call? with
    | none =>
      rw [evalPlainPaired_eq hkeys hform]
      exact finish_agree hD (evalPlain_agree hD h hform hscope)
    | some c =>
      obtain ⟨hhead, hargs⟩ := call?_fits hform hc
      exact stepCall_agree hD h hargs hscope k hhead

theorem Eval.loopPaired_agree {a b : NestedCalls} (h : NestedCalls.Agree D a b) (k l : Nat)
    {form : Value} {scope : Scope} (hform : D.Value w form) (hscope : D.entered w scope) :
    Agree D w D.Value (loop a k l form scope) (loopPaired b k l form scope) := by
  induction l generalizing w form scope with
  | zero => exact .unfinished
  | succ l ih =>
    refine (stepPaired_agree hD hkeys h k hform hscope).bind fun w' next hw hnext => ?_
    cases next with
    | done v => exact .pure_value hD hnext
    | next form scope => exact ih hnext.1 hnext.2

/-- Evaluation is the same where keys are distinct. -/
theorem evalPaired_agree (k : Nat) {form : Value} {scope : Scope} (hform : D.Value w form)
    (hscope : D.entered w scope) :
    Agree D w D.Value (eval k form scope) (evalPaired k form scope) := by
  induction k generalizing w form scope with
  | zero => exact .unfinished
  | succ k ih =>
    exact .guarded (Eval.loopPaired_agree hD hkeys (.of_eval hD ih) k k hform hscope)

theorem NestedCalls.limitedPaired_agree (k : Nat) :
    NestedCalls.Agree D (.limited k) (.limitedPaired k) :=
  .of_eval hD (evalPaired_agree hD hkeys k)

theorem applyFunctionPaired_agree (k : Nat) {f : Value} {args : List Value} (hf : D.Value w f)
    (hargs : D.Values w args) :
    Agree D w D.Value (applyFunction k f args) (applyFunctionPaired k f args) :=
  Eval.apply_agree hD (NestedCalls.limitedPaired_agree hD hkeys k) k hf hargs

theorem expandMacrosPaired_agree (k : Nat) {form : Value} {scope : Scope} (hform : D.Value w form)
    (hscope : D.entered w scope) :
    Agree D w D.Value (expandMacros k form scope) (expandMacrosPaired k form scope) :=
  Eval.expand_agree hD (NestedCalls.limitedPaired_agree hD hkeys k) k hform hscope

end Agree

/-! ### Map forms that runs come across -/

/-- Runs that agree where keys are distinct end alike and leave distinct keys behind. -/
theorem Run.Agree.keysDistinct {x y : Run Value}
    (h : Agree distinctKeys.discipline 0 distinctKeys.discipline.Value x y) {s : State}
    (hs : s.KeysDistinct) : x s = y s ∧ (x s).KeysDistinct := by
  have hholds := Invariant.holds_discipline_iff.mpr ⟨rfl, State.keysDistinct_iff.mp hs⟩
  obtain ⟨hxy, -⟩ := h s.frames.size s (Nat.zero_le _) hholds
  have hkeeps : KeepsTo distinctKeys.discipline 0 distinctKeys.discipline.Value x :=
    fun w t hw ht => ⟨rfl, (h w t hw ht).2⟩
  exact ⟨hxy, hkeeps.keeps.keysDistinct hs⟩

/-- A map form with distinct keys evaluates its values from left to right up to the first error;
what comes out are its keys, unevaluated and in order, with those values. No insertion fails or
merges two entries, and evaluation that leaves out all comparisons is the same wherever keys are
distinct: in what is read, in every state of a session and in what evaluation leaves behind. -/
theorem map_forms_keep_keys :
    (∀ m : Dict, m.Distinct →
      (∀ (before : Dict) (key form : Value) (after : Dict) (vs : List Value) (v : Value),
        m = before ++ (key, form) :: after → vs.length = before.length →
          Dict.insert key v (before.pair vs) = .ok (before.pair vs ++ [(key, v)])) ∧
      ∀ tag scope s o, Ends (fun n => eval n (.map m tag) scope) s o ↔
        (s.limit ≤ s.depth ∧ o = .failed (.depthExceeded s.limit) s) ∨
        (s.depth < s.limit ∧ ∃ q,
          Each (fun form => Ends fun n => eval n form scope) (m.map Prod.snd) s.deeper q ∧
          (∀ vs t, q = .done vs t → vs.length = m.length) ∧
          o = (q.andThen fun vs t => .done (.dict ((m.map Prod.fst).zip vs)) t).mapState
            State.shallower)) ∧
    (∀ n s, s.KeysDistinct →
      (∀ form scope, form.KeysDistinct →
        eval n form scope s = evalPaired n form scope s ∧ (eval n form scope s).KeysDistinct) ∧
      (∀ form scope, form.KeysDistinct →
        expandMacros n form scope s = expandMacrosPaired n form scope s ∧
          (expandMacros n form scope s).KeysDistinct) ∧
      ∀ f args, f.KeysDistinct → (∀ v ∈ args, v.KeysDistinct) →
        applyFunction n f args s = applyFunctionPaired n f args s ∧
          (applyFunction n f args s).KeysDistinct) ∧
    (∀ limit depth text vs, readAll limit depth text = .ok vs → ∀ v ∈ vs, v.KeysDistinct) ∧
    ∀ scope s, Session.Reachable scope s → s.KeysDistinct := by
  have hI := lawful_distinctKeys
  have hD := hI.discipline
  have hkeys {m : Dict} (hm : distinctKeys.discipline.entries m) : m.Distinct := hm
  have hvalue {v : Value} (hv : v.KeysDistinct) : distinctKeys.discipline.Value 0 v :=
    (keysDistinct_iff (n := 0)).mp hv
  refine ⟨fun m hm => ⟨?inserted, fun tag scope s o => ?evaluated⟩, fun n s hs => ⟨?_, ?_, ?_⟩,
    fun limit depth text vs h v hv => ?read, fun scope s h => ?reachable⟩
  case inserted =>
    rintro before key form after vs v rfl hvs
    exact Dict.insert_pair hm hvs
  case evaluated =>
    refine (Eval.ends_map_form_iff hm).trans (or_congr_right (and_congr_right fun _ => ?_))
    refine exists_congr fun q => and_congr_right fun hq => (and_iff_right ?_).symm
    rintro vs t rfl
    exact hq.length_eq.trans (List.length_map _)
  · exact fun form scope hform =>
      (evalPaired_agree hD hkeys n (hvalue hform) trivial).keysDistinct hs
  · exact fun form scope hform =>
      (expandMacrosPaired_agree hD hkeys n (hvalue hform) trivial).keysDistinct hs
  · exact fun f args hf hargs => (applyFunctionPaired_agree hD hkeys n (hvalue hf)
      fun v hv => hvalue (hargs v hv)).keysDistinct hs
  case read =>
    have hread := answers_readAll (hI.shape 0) limit depth text
    rw [h] at hread
    exact keysDistinct_iff.mpr (hread v hv)
  case reachable => exact State.keysDistinct_iff.mpr (h.holds hI trivial trivial).1

/-- A map form with a closure and a vector around an atom for keys, of which the first value resets
the atom. -/
theorem map_forms_keep_keys_reset :
    let f := Value.closure ⟨["x"], none⟩ (.symbol "x") (.global 0) false .nil
    let key := Value.vector [.atom 0]
    let m : Dict := [(f, .list [.builtin .reset, .atom 0, .int 2]), (key, .int 7)]
    let s : State := { (State.initial Host.plain).newGlobal.2 with cells := #[.int 1] }
    let t : State := { s with cells := #[.int 2] }
    (m.Distinct ∧ s.KeysDistinct ∧ (Value.dict m).KeysDistinct) ∧
      Dict.insert key (.int 7) [(f, .int 2)] = .ok [(f, .int 2), (key, .int 7)] ∧
      Ends (fun n => eval n (.dict m) (.global 0)) s
        (.done (.dict [(f, .int 2), (key, .int 7)]) t) ∧
      ∀ n, eval n (.dict m) (.global 0) s = evalPaired n (.dict m) (.global 0) s := by
  intro f key m s t
  have hm : m.Distinct := by
    simp [m, f, key, Dict.Distinct, Dict.Apart, Value.vector, Value.equal]
  have hs : s.KeysDistinct := by
    refine ⟨fun g name v hv => ?_, fun v hv => ?_⟩
    · cases ((State.initial Host.plain).binding?_newFrame g name).symm.trans hv
    · cases List.mem_singleton.mp (Array.mem_def.mp hv)
      exact (keysDistinct_iff (n := 0)).mpr (.leaf trivial)
  have hform : (Value.dict m).KeysDistinct := by
    refine keysDistinct_dict_iff.mpr ⟨hm, ?_⟩
    simp only [m, List.forall_mem_cons]
    refine ⟨⟨Shape.fits_closure.mpr ⟨trivial, .leaf trivial, .leaf trivial⟩,
      Shape.fits_list.mpr ?_⟩, ⟨Shape.fits_vector.mpr ?_, .leaf trivial⟩, List.forall_mem_nil _⟩
    · simp only [List.forall_mem_cons]
      exact ⟨.leaf trivial, .leaf trivial, .leaf trivial, List.forall_mem_nil _⟩
    · exact List.forall_mem_singleton.mpr (.leaf trivial)
  obtain ⟨hpair, hpaired, -⟩ := map_forms_keep_keys
  obtain ⟨hinsert, hends⟩ := hpair m hm
  have hreset : Ends (fun n => eval n (.list [.builtin .reset, .atom 0, .int 2]) (.global 0))
      s.deeper (.done (.int 2) t.deeper) := by
    refine ⟨Outcome.done_ne_unfinished _ _, 4, ?_⟩
    rfl
  have hseven : Ends (fun n => eval n (.int 7) (.global 0)) t.deeper (.done (.int 7) t.deeper) :=
    ⟨Outcome.done_ne_unfinished _ _, 2, rfl⟩
  refine ⟨⟨hm, hs, hform⟩, hinsert [_] _ _ [] [_] _ rfl rfl, ?_, fun n => ?_⟩
  · refine (hends .nil _ s _).mpr (.inr ⟨by decide, _, .cons hreset (.cons hseven .nil), ?_, rfl⟩)
    rintro vs t ⟨⟩
    rfl
  · exact ((hpaired n s hs).1 _ _ hform).1

end Lisp
