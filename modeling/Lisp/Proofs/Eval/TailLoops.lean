import Lisp.Proofs.Eval.Counts
import Lisp.Proofs.Session.Start

/-!
# Loops made of tail calls

A function whose body is `(if test result (name operand ...))` and which calls itself so is a loop:
each call takes the place of the one before it. `tail_calls_level` says that as many rounds as it
takes need no more levels than the first one does: one for the call itself, and one more than the
test, the operands and the name need.
-/

namespace Lisp

open Run Eval

/-- A function that calls itself in tail position until a test holds. -/
structure TailLoop where
  name : String
  params : List String
  test : Value
  result : Value
  operands : List Value

/-- Forms evaluate from left to right to these values. -/
inductive EndsEach (c : Scope) : State → List Value → List Value → State → Prop
  | nil (s : State) : EndsEach c s [] [] s
  | cons {form v : Value} {forms vs : List Value} {s t u : State}
      (hform : Ends (fun n => eval n form c) s (.done v t)) (hforms : EndsEach c t forms vs u) :
      EndsEach c s (form :: forms) (v :: vs) u

/-- A name means the same in a scope as before, frame by frame. -/
def NotRebound (name : String) (c : Scope) (s t : State) : Prop :=
  ∀ g ∈ c.frames, t.binding? g name = s.binding? g name

namespace TailLoop

/-- The call of the function in its own body. -/
def call (f : TailLoop) (operands : List Value) : Value :=
  .list (.symbol f.name :: operands)

/-- The body of the function. -/
def body (f : TailLoop) : Value :=
  .list [.symbol "if", f.test, f.result, f.call f.operands]

/-- The function, created in the global scope. -/
def closure (f : TailLoop) (root : FrameId) (tag : Value) : Value :=
  .closure ⟨f.params, none⟩ f.body (.global root) false tag

/-- The scope of a call. -/
def scope (root : FrameId) (s : State) : Scope :=
  (s.newChild (.global root)).1

/-- The state in which the body of a call begins. -/
def enter (f : TailLoop) (root : FrameId) (vs : List Value) (s : State) : State :=
  (s.newChild (.global root)).2.bindAll s.frames.size (f.params.zip vs)

/-- In so many rounds, each with a frame of its own, the test fails and in the next one it holds;
then the result has this value. The levels are counted inside of the call. -/
inductive Repeats (f : TailLoop) (root : FrameId) :
    Nat → Scope → State → Value → State → Prop
  | last {c : Scope} {s t u : State} {v w : Value}
      (hif : ∀ params body inner tag,
        s.lookup c "if" ≠ some (.closure params body inner true tag))
      (htest : Ends (fun n => eval n f.test c) s (.done v t)) (hv : v.isTruthy = true)
      (hresult : Ends (fun n => eval n f.result c) t.shallower (.done w u)) :
      Repeats f root 0 c s w u
  | again {m : Nat} {c : Scope} {s t u x : State} {v w : Value} {vs : List Value}
      (hif : ∀ params body inner tag,
        s.lookup c "if" ≠ some (.closure params body inner true tag))
      (htest : Ends (fun n => eval n f.test c) s (.done v t)) (hv : v.isTruthy = false)
      (hkept : NotRebound f.name c s t) (hoperands : EndsEach c t f.operands vs u)
      (hkept' : NotRebound f.name c t u)
      (hrest : Repeats f root m (scope root u) (f.enter root vs u) w x) :
      Repeats f root (m + 1) c s w x

end TailLoop

/-! ### Forms one behind the other -/

section EndsEach

variable {c : Scope} {s t : State} {form v : Value} {forms vs : List Value}

/-- What a form evaluates to, it evaluates to with any fuel that is enough. -/
theorem Ends.eval_eq {o : Outcome Value} (h : Ends (fun n => eval n form c) s o) :
    ∃ n, ∀ m ≥ n, eval m form c s = o :=
  h.eq_of_le fun hnm => eval_refines hnm form c

theorem Ends.counts_eq (h : Ends (fun n => eval n form c) s (.done v t)) :
    t.counts = s.counts := by
  obtain ⟨-, n, hn⟩ := h
  exact counts_eval hn

theorem EndsEach.counts_eq (h : EndsEach c s forms vs t) : t.counts = s.counts := by
  induction h with
  | nil => rfl
  | cons hform _ ih => exact ih.trans hform.counts_eq

theorem EndsEach.length_eq (h : EndsEach c s forms vs t) : vs.length = forms.length := by
  induction h with
  | nil => rfl
  | cons _ _ ih => exact congrArg (· + 1) ih

theorem EndsEach.evalEach_eq (h : EndsEach c s forms vs t) :
    ∃ k, ∀ n ≥ k, ∀ done, evalEach (.limited n) c done forms s = .done (done.reverse ++ vs) t := by
  induction h with
  | nil => exact ⟨0, fun n _ done => by rw [List.append_nil]; rfl⟩
  | @cons form v forms vs s t u hform _ ih =>
    obtain ⟨k, hk⟩ := hform.eval_eq
    obtain ⟨l, hl⟩ := ih
    refine ⟨max k l, fun n hn done => ?_⟩
    change (eval n form c s).andThen _ = _
    rw [hk n (Nat.le_trans (Nat.le_max_left k l) hn)]
    refine (hl n (Nat.le_trans (Nat.le_max_right k l) hn) (v :: done)).trans ?_
    rw [List.reverse_cons, List.append_assoc, List.singleton_append]

end EndsEach

/-- Below the limit what is its own value evaluates to itself. -/
theorem ends_self {v : Value} {c : Scope} {s : State} (hcall : v.call? = none)
    (hv : ∀ nested, evalPlain nested v c = pure v) (hlimit : s.depth < s.limit) :
    Ends (fun n => eval n v c) s (.done v s) :=
  ⟨nofun, 2, (eval_self_takes hcall hv 0).eq hlimit⟩

/-! ### Rounds -/

namespace TailLoop

variable {f : TailLoop} {root : FrameId} {tag : Value} {c : Scope} {s t u : State}

/-- A scope in which the function is called: its name means the function, here and globally. -/
structure Ready (f : TailLoop) (root : FrameId) (tag : Value) (c : Scope) (s : State) : Prop where
  root_mem : root ∈ c.frames
  lookup_eq : s.lookup c f.name = some (f.closure root tag)
  binding_eq : s.binding? root f.name = some (f.closure root tag)

theorem Ready.of_notRebound (h : f.Ready root tag c s) (ht : NotRebound f.name c s t) :
    f.Ready root tag c t where
  root_mem := h.root_mem
  lookup_eq := (State.lookup_congr_frames ht).trans h.lookup_eq
  binding_eq := (ht root h.root_mem).trans h.binding_eq

/-- The frame of a call changes no other frame. -/
theorem binding?_enter {g : FrameId} (hg : g < s.frames.size) (vs : List Value) (name : String) :
    (f.enter root vs s).binding? g name = s.binding? g name :=
  (State.binding?_bindAll_of_ne (Nat.ne_of_lt hg) _ name).trans (s.binding?_newFrame g name)

/-- A name that is no parameter is not bound in the frame of a call. -/
theorem binding?_enter_self {name : String} (hname : name ∉ f.params) (vs : List Value) :
    (f.enter root vs s).binding? s.frames.size name = none := by
  have hzip : name ∉ (f.params.zip vs).map Prod.fst := by
    intro h
    obtain ⟨b, hb, rfl⟩ := List.mem_map.mp h
    exact hname (List.of_mem_zip hb).1
  refine (State.binding?_bindAll_of_notMem hzip).trans ((s.binding?_newFrame _ name).trans ?_)
  simp [State.binding?]

/-- Inside a call, a name that is no parameter means what it means globally. -/
theorem lookup_enter {name : String} (hname : name ∉ f.params)
    (hroot : root < s.frames.size) (vs : List Value) :
    (f.enter root vs s).lookup (scope root s) name = s.binding? root name := by
  have hnew : (f.enter root vs s).binding? s.frames.size name = none := binding?_enter_self hname vs
  have hold : (f.enter root vs s).binding? root name = s.binding? root name :=
    binding?_enter hroot vs name
  simp only [State.lookup, scope, State.newChild, State.newFrame, Scope.child, Scope.global,
    State.firstBinding?, hnew, hold]

/-- Inside a call, a parameter means what it is called with. -/
theorem lookup_enter_self {vs : List Value} {name : String} {v : Value}
    (hnodup : ((f.params.zip vs).map Prod.fst).Nodup) (h : (name, v) ∈ f.params.zip vs) :
    (f.enter root vs s).lookup (scope root s) name = some v := by
  have hsize : s.frames.size < (s.newChild (.global root)).2.frames.size := by
    rw [State.size_frames_newChild]
    exact Nat.lt_succ_self _
  have hbound : (f.enter root vs s).binding? s.frames.size name = some v :=
    State.binding?_bindAll_of_mem hsize hnodup h
  simp only [State.lookup, scope, State.newChild, State.newFrame, Scope.child, State.firstBinding?,
    hbound]

theorem ready_enter (h : s.binding? root f.name = some (f.closure root tag))
    (hname : f.name ∉ f.params) (vs : List Value) :
    f.Ready root tag (scope root s) (f.enter root vs s) := by
  have hroot := State.lt_size_of_binding? h
  exact ⟨.tail _ (.head _), (lookup_enter hname hroot vs).trans h,
    (binding?_enter hroot vs f.name).trans h⟩

theorem counts_enter (vs : List Value) : (f.enter root vs s).counts = s.counts := by
  rw [enter, State.bindAll_eq]
  rfl

@[simp] theorem depth_enter (vs : List Value) : (f.enter root vs s).depth = s.depth :=
  congrArg Counts.depth (counts_enter vs)

@[simp] theorem limit_enter (vs : List Value) : (f.enter root vs s).limit = s.limit :=
  congrArg Counts.limit (counts_enter vs)

/-- The test of a round is followed by the result or by the next call, at the same level. -/
theorem loop_body {v : Value}
    (hif : ∀ params body inner tag,
      s.lookup c "if" ≠ some (.closure params body inner true tag))
    (htest : Ends (fun n => eval n f.test c) s (.done v t)) :
    ∃ k, ∀ n ≥ k, ∀ m, loop (.limited n) n (m + 1) f.body c s =
      loop (.limited n) n m (if v.isTruthy then f.result else f.call f.operands) c t := by
  obtain ⟨k, hk⟩ := htest.eval_eq
  refine ⟨k + 1, fun n hn m => ?_⟩
  obtain ⟨n, rfl⟩ := Nat.exists_eq_add_of_le' (Nat.le_of_add_left_le hn)
  have hchoose : loop (.limited (n + 1)) (n + 1) (m + 1)
        (.list (.symbol SpecialForm.choose.name :: [f.test, f.result, f.call f.operands])) c s =
      (special (.limited (n + 1)) (n + 1) .choose [f.test, f.result, f.call f.operands] c >>=
        Step.proceed (loop (.limited (n + 1)) (n + 1) m)) s := loop_special hif m
  refine hchoose.trans ?_
  change ((eval (n + 1) f.test c s).andThen _).andThen _ = _
  rw [hk (n + 1) (Nat.le_of_succ_le hn)]
  simp only [Outcome.andThen]
  cases v.isTruthy <;> rfl

/-- A call of the function evaluates the operands and goes on with the body, at the same level. -/
theorem loop_call {forms vs : List Value} (hform : SpecialForm.ofName? f.name = none)
    (hbound : s.lookup c f.name = some (f.closure root tag)) (hlimit : s.depth + 1 ≤ s.limit)
    (hforms : EndsEach c s forms vs t) (hlength : forms.length = f.params.length) :
    ∃ k, ∀ n ≥ k, ∀ m, loop (.limited n) n (m + 1) (f.call forms) c s =
      loop (.limited n) n m f.body (scope root t) (f.enter root vs t) := by
  obtain ⟨k, hk⟩ := hforms.evalEach_eq
  refine ⟨k + 2, fun n hn m => ?_⟩
  obtain ⟨n, rfl⟩ := Nat.exists_eq_add_of_le' (Nat.le_of_add_left_le hn)
  have hmacro : ∀ params body inner tag,
      s.lookup c f.name ≠ some (.closure params body inner true tag) := by
    rw [hbound]
    exact nofun
  have harity : (⟨f.params, none⟩ : Params).arity.check "closure" vs.length = .ok () := by
    have hvs : vs.length = f.params.length := hforms.length_eq.trans hlength
    rw [Arity.check, if_pos]
    exact beq_iff_eq.mpr hvs
  have henter : invoke (.limited (n + 2)) (n + 2) (f.closure root tag) vs t =
      .done (.next f.body (scope root t)) (f.enter root vs t) := by
    have hbindings : (⟨f.params, none⟩ : Params).bindings vs = f.params.zip vs :=
      List.append_nil _
    change ((ofExcept _ >>= _) t).andThen _ = _
    rw [harity, TailLoop.enter, ← hbindings]
    rfl
  have hname := (eval_symbol_takes hbound n).eq hlimit
  rw [loop_succ, bind_apply, call, step_of_not_macro hmacro (n + 1), stepCall_function hform,
    bind_apply]
  change ((eval (n + 2) (.symbol f.name) c s).andThen _).andThen _ = _
  rw [hname]
  change ((evalEach (.limited (n + 2)) c [] forms s).andThen _).andThen _ = _
  rw [hk (n + 2) (Nat.le_of_add_right_le hn) []]
  change (invoke (.limited (n + 2)) (n + 2) (f.closure root tag) vs t).andThen _ = _
  rw [henter]
  rfl

/-- All rounds take place at one level. -/
theorem Repeats.loop_body {m : Nat} {w : Value} (h : f.Repeats root m c s w u)
    (hready : f.Ready root tag c s) (hform : SpecialForm.ofName? f.name = none)
    (hname : f.name ∉ f.params) (hlength : f.operands.length = f.params.length)
    (hdepth : 1 ≤ s.depth) (hlimit : s.depth + 1 ≤ s.limit) :
    ∃ k, ∀ n ≥ k, ∀ l ≥ k,
      (loop (.limited n) n l f.body c s).mapState State.shallower = .done w u := by
  induction h with
  | @last c s t u v w hif htest hv hresult =>
    obtain ⟨k, hk⟩ := TailLoop.loop_body hif htest
    obtain ⟨j, hj⟩ := hresult.eval_eq
    have hcounts := htest.counts_eq
    have htdepth : t.depth = s.depth := congrArg Counts.depth hcounts
    have htlimit : t.limit = s.limit := congrArg Counts.limit hcounts
    have hdeeper : t.shallower.deeper = t := by
      rw [State.deeper, State.shallower, Nat.sub_add_cancel (htdepth ▸ hdepth)]
    have hlt : t.shallower.depth < t.shallower.limit := by
      change t.depth - 1 < t.limit
      omega
    have hloop : (loop (.limited j) j j f.result c t).mapState State.shallower = .done w u := by
      rw [← hj (j + 1) (Nat.le_succ j), eval_eq_loop hlt, hdeeper]
    have hend : loop (.limited j) j j f.result c t ≠ .unfinished := by
      refine Outcome.ne_unfinished_of_mapState (f := State.shallower) ?_
      rw [hloop]
      rintro ⟨⟩
    refine ⟨max k j + 1, fun n hn l hl => ?_⟩
    obtain ⟨l, rfl⟩ := Nat.exists_eq_add_of_le' (Nat.le_of_add_left_le hl)
    rw [hk n (by omega) l, if_pos hv, loop_apply_eq (by omega) (by omega) hend, hloop]
  | @again m c s t u x v w vs hif htest hv hkept hoperands hkept' hrest ih =>
    obtain ⟨k, hk⟩ := TailLoop.loop_body hif htest
    have ht := hready.of_notRebound hkept
    have htcounts := htest.counts_eq
    have htlimit : t.depth + 1 ≤ t.limit := by
      rw [show t.depth = s.depth from congrArg Counts.depth htcounts,
        show t.limit = s.limit from congrArg Counts.limit htcounts]
      exact hlimit
    obtain ⟨j, hj⟩ := TailLoop.loop_call hform ht.lookup_eq htlimit hoperands hlength
    have hcounts : (f.enter root vs u).counts = s.counts :=
      (counts_enter vs).trans (hoperands.counts_eq.trans htcounts)
    have hudepth : (f.enter root vs u).depth = s.depth := congrArg Counts.depth hcounts
    have hulimit : (f.enter root vs u).limit = s.limit := congrArg Counts.limit hcounts
    obtain ⟨i, hi⟩ := ih (ready_enter (ht.of_notRebound hkept').binding_eq hname vs)
      (hudepth ▸ hdepth) (by rwa [hudepth, hulimit])
    refine ⟨max k (max j i) + 2, fun n hn l hl => ?_⟩
    obtain ⟨l, rfl⟩ := Nat.exists_eq_add_of_le' (Nat.le_of_add_left_le hl)
    rw [hk n (by omega) (l + 1), hv, if_neg Bool.false_ne_true, hj n (by omega) l,
      hi n (by omega) l (by omega)]

/-- A call of the function has the value of the result, in however many rounds. -/
theorem Repeats.call_ends {m : Nat} {forms vs : List Value} {w : Value}
    (hform : SpecialForm.ofName? f.name = none) (hname : f.name ∉ f.params)
    (hoperands : f.operands.length = f.params.length)
    (hlength : forms.length = f.params.length) (hlimit : s.depth + 2 ≤ s.limit)
    (hlookup : s.lookup c f.name = some (f.closure root tag))
    (hforms : EndsEach c s.deeper forms vs t)
    (hbound : t.binding? root f.name = some (f.closure root tag))
    (h : f.Repeats root m (scope root t) (f.enter root vs t) w u) :
    Ends (fun n => eval n (f.call forms) c) s (.done w u) := by
  rw [← s.lookup_deeper] at hlookup
  obtain ⟨k, hk⟩ := loop_call hform hlookup hlimit hforms hlength
  have hcounts : (f.enter root vs t).counts = s.deeper.counts :=
    (counts_enter vs).trans hforms.counts_eq
  have hdepth : (f.enter root vs t).depth = s.depth + 1 := congrArg Counts.depth hcounts
  have hlevels : (f.enter root vs t).depth + 1 ≤ (f.enter root vs t).limit := by
    rw [hdepth, show (f.enter root vs t).limit = s.limit from congrArg Counts.limit hcounts]
    exact hlimit
  obtain ⟨j, hj⟩ := h.loop_body (ready_enter hbound hname vs) hform hname hoperands
    (hdepth ▸ Nat.succ_pos _) hlevels
  refine ⟨nofun, max k j + 2, ?_⟩
  show eval (max k j + 1 + 1) (f.call forms) c s = _
  rw [eval_eq_loop (Nat.lt_of_succ_lt hlimit), hk _ (by omega), hj _ (by omega) _ (by omega)]

end TailLoop

/-! ### Counting down -/

/-- The function that counts down to zero, as it is written. -/
def countDownSource : String :=
  "(def! count-down (fn* (n) (if (= n 0) :done (count-down (- n 1)))))"

/-- The function that counts down to zero. -/
def countDown : TailLoop where
  name := "count-down"
  params := ["n"]
  test := .list [.symbol "=", .symbol "n", .int 0]
  result := .keyword "done"
  operands := [.list [.symbol "-", .symbol "n", .int 1]]

/-- What counting down needs: the functions that it calls, and that no macro hides `if`. -/
structure Counting (s : State) : Prop where
  equal : s.binding? 0 "=" = some (.builtin .eq)
  minus : s.binding? 0 "-" = some (.builtin .sub)
  choose : s.binding? 0 "if" = none

namespace Counting

variable {s : State} {b : Builtin} {c : Scope} {i k : Int64} {v : Value}

theorem enter (h : Counting s) (vs : List Value) : Counting (countDown.enter 0 vs s) := by
  have hroot := State.lt_size_of_binding? h.equal
  constructor
  · rw [TailLoop.binding?_enter hroot, h.equal]
  · rw [TailLoop.binding?_enter hroot, h.minus]
  · rw [TailLoop.binding?_enter hroot, h.choose]

/-- A built-in function of `n` and a number needs two levels, if it needs none itself. -/
theorem ends_builtin (hname : SpecialForm.ofName? b.name = none)
    (hb : s.lookup c b.name = some (.builtin b)) (hn : s.lookup c "n" = some (.int i))
    (hcall : ∀ ap (t : State), b.call readForm ap [.int i, .int k] t = .done v t)
    (hlimit : s.depth + 2 ≤ s.limit) :
    Ends (fun n => eval n (.list [.symbol b.name, .symbol "n", .int k]) c) s (.done v s) := by
  refine ⟨nofun, 3, ?_⟩
  rw [← s.lookup_deeper] at hn
  have hint : Takes 1 (eval 2 (.int k) c) s.deeper (.done (.int k) s.deeper) :=
    eval_self_takes rfl (fun _ => rfl) 0
  have hcalled : Takes 1 (eval 2 (.symbol "n") c >>= fun v => eval 2 (.int k) c >>= fun w =>
      b.call readForm (apply (.limited 2) 2) [v, w]) s.deeper (.done v s.deeper) :=
    (eval_symbol_takes hn 0).bind_more (Nat.le_refl 1)
      (hint.bind fun _ => hcall (apply (.limited 2) 2) s.deeper)
  refine (eval_builtin_takes (n := 0) (k := 1) hname hb (Nat.le_refl 1) (.congr hcalled ?_)).eq
    hlimit
  simp only [evalEach, bind_assoc]
  rfl

/-- What a call of `count-down` tests. -/
theorem ends_test (h : Counting s) (hlimit : s.depth + 2 ≤ s.limit) :
    Ends (fun n => eval n countDown.test (TailLoop.scope 0 s)) (countDown.enter 0 [.int i] s)
      (.done (.bool (i == 0)) (countDown.enter 0 [.int i] s)) := by
  have hroot := State.lt_size_of_binding? h.equal
  have hn : (countDown.enter 0 [.int i] s).lookup (TailLoop.scope 0 s) "n" = some (.int i) :=
    TailLoop.lookup_enter_self (by simp [countDown]) (.head _)
  refine ends_builtin (b := .eq) rfl ?_ hn (fun ap t => ?_) ?_
  · exact (TailLoop.lookup_enter (by decide) hroot _).trans h.equal
  · have hequal : (Value.int i).equal (.int 0) = .ok (i == 0) := by rw [Value.equal]
    change ofExcept ((Value.int i).equal (.int 0) >>= fun b => pure (Value.bool b)) t = _
    rw [hequal]
    rfl
  · rwa [TailLoop.depth_enter, TailLoop.limit_enter]

/-- What a call of `count-down` hands on. -/
theorem ends_operands {j : Int64} (h : Counting s) (hij : j.toInt = i.toInt - 1)
    (hlimit : s.depth + 2 ≤ s.limit) :
    EndsEach (TailLoop.scope 0 s) (countDown.enter 0 [.int i] s) countDown.operands [.int j]
      (countDown.enter 0 [.int i] s) := by
  have hroot := State.lt_size_of_binding? h.minus
  have hn : (countDown.enter 0 [.int i] s).lookup (TailLoop.scope 0 s) "n" = some (.int i) :=
    TailLoop.lookup_enter_self (by simp [countDown]) (.head _)
  refine .cons (ends_builtin (b := .sub) rfl ?_ hn (fun ap t => ?_) ?_) (.nil _)
  · exact (TailLoop.lookup_enter (by decide) hroot _).trans h.minus
  · have hword : Decimal.word? (i.toInt - (1 : Int64).toInt) = some j := by
      rw [show (1 : Int64).toInt = 1 from rfl, ← hij, Decimal.word?_toInt]
    have harithmetic : Builtin.sub.arithmetic (· - ·) [.int i, .int 1] = .ok (.int j) := by
      simp only [Builtin.arithmetic, Builtin.two, Builtin.intOf, hword, bind, Except.bind]
    change ofExcept (Builtin.sub.arithmetic (· - ·) [.int i, .int 1]) t = _
    rw [harithmetic]
    rfl
  · rwa [TailLoop.depth_enter, TailLoop.limit_enter]

theorem not_macro (h : Counting s) (vs : List Value) :
    ∀ params body inner tag, (countDown.enter 0 vs s).lookup (TailLoop.scope 0 s) "if" ≠
      some (.closure params body inner true tag) := by
  rw [TailLoop.lookup_enter (by decide) (State.lt_size_of_binding? h.equal), h.choose]
  exact nofun

/-- Counting down from `m` takes `m` rounds at one level. -/
theorem repeats (m : Nat) (hs : Counting s) (hi : i.toInt = m) (hdepth : 1 ≤ s.depth)
    (hlimit : s.depth + 2 ≤ s.limit) :
    ∃ u, countDown.Repeats 0 m (TailLoop.scope 0 s) (countDown.enter 0 [.int i] s)
      (.keyword "done") u := by
  induction m generalizing s i with
  | zero =>
    have hzero : (i == 0) = true := beq_iff_eq.mpr (Int64.toInt_inj.mp hi)
    refine ⟨(countDown.enter 0 [.int i] s).shallower,
      .last (hs.not_macro _) (hs.ends_test hlimit) hzero (ends_self rfl (fun _ => rfl) ?_)⟩
    simp only [State.shallower, TailLoop.depth_enter, TailLoop.limit_enter]
    omega
  | succ m ih =>
    have hnonzero : (i == 0) = false := by
      rw [beq_eq_false_iff_ne]
      rintro rfl
      cases hi
    obtain ⟨j, hj⟩ : ∃ j : Int64, j.toInt = i.toInt - 1 := by
      have hle := i.toInt_le
      rw [Int64.toInt_maxValue] at hle
      exact ⟨Int64.ofInt (i.toInt - 1), Int64.toInt_ofInt_of_le (by omega) (by omega)⟩
    have hrest := ih (hs.enter [.int i]) (i := j) (by rw [hj, hi]; push_cast; omega)
      (by rwa [TailLoop.depth_enter]) (by rwa [TailLoop.depth_enter, TailLoop.limit_enter])
    obtain ⟨u, hu⟩ := hrest
    exact ⟨u, .again (hs.not_macro _) (hs.ends_test hlimit) hnonzero (fun _ _ => rfl)
      (hs.ends_operands hj hlimit) (fun _ _ => rfl) hu⟩

end Counting

/-- In a new session, the text of `count-down` defines the function. -/
theorem defines_countDown (host : Host) (n : Nat) :
    ∃ s v t, Session.start (n + 5) (.initial host) = .done (.global 0) s ∧
      Session.evalText (n + 5) (.global 0) countDownSource s = .done v t ∧ Counting t ∧
        t.binding? 0 countDown.name = some (countDown.closure 0 .nil) ∧ t.depth = 0 := by
  obtain ⟨s, hstart, hs, -⟩ := Session.start_prepared host n
  let closure := countDown.closure 0 .nil
  have hread : readAll s.limit s.depth countDownSource =
      .ok [.list [.symbol "def!", .symbol countDown.name,
        .list [.symbol "fn*", .list [.symbol "n"], countDown.body]]] := by
    rw [hs.depth, hs.limit]
    rfl
  have hlimit : s.depth + 2 ≤ s.limit := by
    rw [hs.depth, hs.limit]
    decide
  have hparams : Params.parse [.symbol "n"] = .ok ⟨["n"], none⟩ := rfl
  have hdefine := (hs.define_takes (hs.function_takes hparams countDown.body (n + 2))
    countDown.name).eq hlimit
  have ht : Session.Prepared host (s.define (.global 0) countDown.name closure) :=
    hs.define (by decide +kernel) rfl _
  refine ⟨s, closure, s.define (.global 0) countDown.name closure, hstart, ?_, ?_, ?_, hs.depth⟩
  · rw [Session.evalText, bind_apply, readForms_apply, hread]
    change (eval (n + 5) _ (.global 0) s).andThen _ = _
    rw [hdefine]
    rfl
  · exact ⟨ht.builtins .eq, ht.builtins .sub, ht.forms .choose⟩
  · exact State.binding?_bind_self (hs.frames ▸ Nat.zero_lt_one) _ _

/-! ### Levels of tail calls -/

/-- A function whose body chooses between a result and a call of itself takes no more levels for
many rounds than for one. So a new session that defines `count-down` counts down from any number
that is not negative, whatever the limit is, if it allows for three levels. -/
theorem tail_calls_level :
    (∀ (f : TailLoop) (root : FrameId) (tag : Value) (c : Scope) (m : Nat) (s t u : State)
      (forms vs : List Value) (w : Value),
      SpecialForm.ofName? f.name = none → f.name ∉ f.params →
        f.operands.length = f.params.length → forms.length = f.params.length →
          s.depth + 2 ≤ s.limit → s.lookup c f.name = some (f.closure root tag) →
            EndsEach c s.deeper forms vs t →
              t.binding? root f.name = some (f.closure root tag) →
                f.Repeats root m (TailLoop.scope root t) (f.enter root vs t) w u →
                  Ends (fun n => eval n (f.call forms) c) s (.done w u)) ∧
      ∀ (host : Host) (n : Nat), ∃ s v t,
        Session.start (n + 5) (.initial host) = .done (.global 0) s ∧
          Session.evalText (n + 5) (.global 0) countDownSource s = .done v t ∧
            ∀ (limit : Nat) (i : Int64), 3 ≤ limit → 0 ≤ i.toInt →
              ∃ u, Ends (fun k => eval k (.list [.symbol "count-down", .int i]) (.global 0))
                { t with limit := limit } (.done (.keyword "done") u) := by
  refine ⟨fun f root tag c m s t u forms vs w hform hname hoperands hlength hlimit hlookup hforms
    hbound h => h.call_ends hform hname hoperands hlength hlimit hlookup hforms hbound,
    fun host n => ?_⟩
  obtain ⟨s, v, t, hstart, hdefine, ht, hbound, hdepth⟩ := defines_countDown host n
  refine ⟨s, v, t, hstart, hdefine, fun limit i hlimit hi => ?_⟩
  let low : State := { t with limit := limit }
  have hlow : low.depth + 3 ≤ low.limit := by
    change t.depth + 3 ≤ limit
    rwa [hdepth, Nat.zero_add]
  have hcounting : Counting low.deeper := ⟨ht.equal, ht.minus, ht.choose⟩
  have hint : Ends (fun n => eval n (.int i) (.global 0)) low.deeper
      (.done (.int i) low.deeper) :=
    ends_self rfl (fun _ => rfl) (Nat.lt_of_succ_lt hlow)
  obtain ⟨u, hu⟩ := hcounting.repeats i.toInt.toNat (Int.toNat_of_nonneg hi).symm
    (Nat.succ_pos _) (Nat.le_trans (Nat.le_of_eq (Nat.succ_add _ 2)) hlow)
  have hlookup : low.lookup (.global 0) countDown.name = some (countDown.closure 0 .nil) := hbound
  exact ⟨u, hu.call_ends rfl (by decide) rfl rfl (Nat.le_of_succ_le hlow) hlookup
    (.cons hint (.nil _)) hbound⟩

/-- One round of a function that calls itself with `true`, where two levels are left, and a long
countdown where three are. -/
theorem tail_calls_level_twice :
    let f : TailLoop := ⟨"f", ["x"], .symbol "x", .int 1, [.bool true]⟩
    let s : State := { (State.initial Host.plain).newGlobal.2.bind 0 "f" (f.closure 0 .nil) with
      limit := 2 }
    (s.depth + 2 ≤ s.limit ∧ s.lookup (.global 0) f.name = some (f.closure 0 .nil)) ∧
      (∃ u, Ends (fun n => eval n (f.call [.bool false]) (.global 0)) s (.done (.int 1) u)) ∧
        ∃ t u, Ends (fun k => eval k (.list [.symbol "count-down", .int Int64.maxValue])
          (.global 0)) t (.done (.keyword "done") u) ∧ t.limit = 3 := by
  intro f s
  obtain ⟨hcalls, hcounts⟩ := tail_calls_level
  have hlevels : s.depth + 2 ≤ s.limit := by decide
  have hsize : 0 < (State.initial Host.plain).newGlobal.2.frames.size := by decide
  have hbound : s.binding? 0 f.name = some (f.closure 0 .nil) := State.binding?_bind_self hsize _ _
  have hroot : 0 < s.deeper.frames.size := State.lt_size_of_binding? hbound
  have hif : s.deeper.binding? 0 "if" = none :=
    (State.binding?_bind_of_ne (.inr (by decide)) _).trans rfl
  have hbool (b : Bool) {t : State} (c : Scope) (ht : t.depth < t.limit) :
      Ends (fun n => eval n (.bool b) c) t (.done (.bool b) t) := ends_self rfl (fun _ => rfl) ht
  -- The state in the first call, and in the one that follows it.
  let first := f.enter 0 [.bool false] s.deeper
  let second := f.enter 0 [.bool true] first
  have hfirst : first.depth < first.limit := by decide
  have htest (b : Bool) (t : State) (ht : t.depth < t.limit) :
      Ends (fun n => eval n (.symbol "x") (TailLoop.scope 0 t)) (f.enter 0 [.bool b] t)
        (.done (.bool b) (f.enter 0 [.bool b] t)) := by
    have hx : (f.enter 0 [.bool b] t).lookup (TailLoop.scope 0 t) "x" = some (.bool b) :=
      TailLoop.lookup_enter_self (by simp [f]) (.head _)
    refine ⟨nofun, 2, (eval_symbol_takes hx 0).eq ?_⟩
    rw [TailLoop.depth_enter, TailLoop.limit_enter]
    exact ht
  refine ⟨⟨hlevels, hbound⟩, ?_, ?_⟩
  · have hlast : f.Repeats 0 0 (TailLoop.scope 0 first) second (.int 1) second.shallower := by
      refine .last ?_ (htest true first hfirst) rfl (ends_self rfl (fun _ => rfl) (by decide))
      rw [TailLoop.lookup_enter (by decide) (by decide), TailLoop.binding?_enter hroot, hif]
      exact nofun
    have hrounds : f.Repeats 0 1 (TailLoop.scope 0 s.deeper) first (.int 1) second.shallower := by
      refine .again ?_ (htest false s.deeper (by decide)) rfl (fun _ _ => rfl)
        (.cons (hbool true _ hfirst) (.nil _)) (fun _ _ => rfl) hlast
      rw [TailLoop.lookup_enter (by decide) hroot, hif]
      exact nofun
    exact ⟨_, hcalls f 0 .nil (.global 0) 1 s s.deeper _ [.bool false] [.bool false] _ rfl
      (by decide) rfl rfl hlevels hbound (.cons (hbool false _ (by decide)) (.nil _)) hbound
      hrounds⟩
  · obtain ⟨-, -, t, -, -, hcount⟩ := hcounts Host.plain 0
    obtain ⟨u, hu⟩ := hcount 3 Int64.maxValue (Nat.le_refl 3) (by decide)
    exact ⟨_, u, hu, rfl⟩

end Lisp
